import Libfibre.LockedMutex.Model

/-! The order in which the mutex is obtained with `Fifo`, and what holds of the mutex in both modes. The
    fibres asleep in `bq` are served from the front; a caller that finds the mutex free finds nobody
    asleep. -/

namespace Libfibre.LockedMutex
open Transition BlockingQueue

variable {F : Type} [DecidableEq F] {fifo : Bool} {s s' t : State F} {f g : F} {a : Action F}

/-- The fibres asleep in `bq`, longest-blocked first; timed-out ones are no longer there. -/
def waiters (s : State F) : List F := s.bq.filter fun f => (s.pc f).waits

/-- The fibre that a step gives the mutex to. -/
def obtained (s s' : State F) : Option F := if s'.owner = s.owner then none else s'.owner

/-- The part of a queue in front of `f`. -/
def ahead (f : F) (l : List F) : List F := l.takeWhile fun g => decide (g ≠ f)

/-! ### What a step does to the waiters -/

theorem ahead_append {l : List F} (hf : f ∈ l) (l' : List F) : ahead f (l ++ l') = ahead f l := by
  induction l with
  | nil => cases hf
  | cons g l ih =>
    rw [List.cons_append, ahead, ahead, List.takeWhile_cons, List.takeWhile_cons]
    by_cases hg : g = f
    · simp [hg]
    · simp only [decide_eq_true_eq, ne_eq, hg, not_false_eq_true, if_true]
      exact congrArg (g :: ·) (ih ((List.mem_cons.mp hf).resolve_left (Ne.symm hg)))

theorem ahead_filter (hne : g ≠ f) (l : List F) :
    ahead f (l.filter fun k => decide (k ≠ g)) = (ahead f l).filter fun k => decide (k ≠ g) := by
  induction l with
  | nil => rfl
  | cons k l ih =>
    simp only [ahead] at ih ⊢
    rcases eq_or_ne k f with rfl | hkf
    · simp [hne.symm]
    · rcases eq_or_ne k g with rfl | hkg
      · simpa [hkf] using ih
      · simpa [hkf, hkg] using ih

omit [DecidableEq F] in
theorem mem_waiters (h : Inv fifo s) : f ∈ waiters s ↔ (s.pc f).waits = true := by
  rw [waiters, List.mem_filter]
  exact ⟨And.right, fun hf => ⟨h.mem_of_waits hf, hf⟩⟩

/-- A fibre that does not wait moves to where it does not either. -/
theorem waiters_goto {p : Pc F} (hp : p.waits = false) (hold : (s.pc f).waits = false) :
    waiters (s.goto f p) = waiters s := by
  rw [waiters, waiters]
  refine List.filter_congr fun g _ => ?_
  rcases eq_or_ne g f with rfl | hne
  · rw [goto_same, hp, hold]
  · rw [goto_other hne]

/-- The waiters after a step with `Fifo`. -/
inductive Queued (s s' : State F) : Prop
  | same : waiters s' = waiters s → obtained s s' = none → Queued s s'
  | joined (g : F) : waiters s' = waiters s ++ [g] → obtained s s' = none → Queued s s'
  | expired (g : F) : waiters s' = (waiters s).filter (fun k => decide (k ≠ g)) →
      (s'.pc g).waits = false → obtained s s' = none → Queued s s'
  | entered (g : F) : s.owner = none → waiters s' = waiters s → obtained s s' = some g → Queued s s'
  | passed (g : F) : waiters s = g :: waiters s' → (s'.pc g).waits = false →
      obtained s s' = some g → Queued s s'

theorem obtained_same (h : s'.owner = s.owner) : obtained s s' = none := if_pos h

theorem obtained_new (howner : s'.owner = some g) (hne : s.owner ≠ some g) :
    obtained s s' = some g := by
  rw [obtained, if_neg (by rw [howner]; exact hne.symm), howner]

theorem queued_lock (h : Inv true s) {mode : Mode} {ahead : Bool} (hpc : s.pc f = .locking mode) :
    Queued s (internalAcquire s f mode ahead) := by
  have hf : f ∉ s.bq := by
    rw [h.queued, hpc]
    simp [Pc.queued]
  have hold : (s.pc f).waits = false := by rw [hpc]; rfl
  cases howner : s.owner with
  | none =>
    have hs' : internalAcquire s f mode ahead = State.goto { s with owner := some f } f .own := by
      rw [internalAcquire, howner]
    rw [hs']
    exact .entered f howner (waiters_goto rfl hold) (obtained_new rfl (by rw [howner]; simp))
  | some k =>
    rw [internalAcquire, howner]
    dsimp only
    split_ifs
    · refine .joined f ?_ (obtained_same howner.symm)
      rw [waiters, waiters]
      simp only [State.goto, List.filter_append]
      congr 1
      · refine List.filter_congr fun g hg => ?_
        rw [Function.update_of_ne]
        rintro rfl
        exact hf hg
      · simp [Pc.waits]
    · exact .same (waiters_goto rfl hold) (obtained_same rfl)

theorem queued_timer {mode : Mode} (hpc : s.pc f = .blocked mode) : Queued s (s.goto f .expired) := by
  refine .expired f ?_ (by rw [goto_same]; rfl) (obtained_same rfl)
  rw [waiters, waiters, List.filter_filter]
  refine List.filter_congr fun g _ => ?_
  rcases eq_or_ne g f with rfl | hne
  · rw [goto_same]
    simp [Pc.waits]
  · rw [goto_other hne]
    simp [hne]

theorem queued_cancel (h : Inv true s) (hpc : s.pc f = .expired) :
    Queued s (State.goto { s with bq := s.bq.erase f } f .out) := by
  refine .same ?_ (obtained_same rfl)
  rw [waiters, waiters]
  simp only [State.goto]
  rw [h.nodup.erase_eq_filter, List.filter_filter]
  refine List.filter_congr fun g _ => ?_
  rcases eq_or_ne g f with rfl | hne
  · rw [Function.update_self, hpc]
    rfl
  · rw [Function.update_of_ne hne]
    simp [hne]

/-- The section of `release`: the first of the waiters gets the mutex. -/
theorem release_first (h : Inv true s) (hpc : s.pc f = .own) :
    (∃ g, waiters s = g :: waiters (release true s f) ∧ (release true s f).owner = some g ∧
      ((release true s f).pc g).waits = false) ∨
    (waiters s = [] ∧ waiters (release true s f) = [] ∧ (release true s f).owner = none) := by
  rw [LockedMutex.release]
  rcases hu : unblock (fun g => (s.pc g).waits) s.bq with ⟨next, q⟩
  cases next with
  | some g =>
    obtain ⟨front, back, hbq, hq, hwaits, hfront⟩ := unblock_some hu
    have hgf : g ≠ f := by
      rintro rfl
      rw [hpc] at hwaits
      cases hwaits
    have hnodup := h.nodup
    rw [hbq, List.nodup_middle, List.nodup_cons] at hnodup
    have hfront' : front.filter (fun k => (s.pc k).waits) = [] := by
      rw [List.filter_eq_nil_iff]
      intro k hk
      rw [hfront k hk]
      exact Bool.false_ne_true
    have hgranted : (granted (s.pc g)).waits = false := by
      cases s.pc g <;> rfl
    refine .inl ⟨g, ?_, rfl, ?_⟩
    · rw [waiters, waiters]
      simp only [State.goto]
      rw [hbq, hq, List.filter_append, hfront', List.nil_append, List.filter_cons, if_pos hwaits,
        ← List.nil_append (List.filter _ back), ← hfront', ← List.filter_append]
      congr 1
      refine List.filter_congr fun k hk => ?_
      have hkg : k ≠ g := by
        rintro rfl
        exact hnodup.1 hk
      rcases eq_or_ne k f with rfl | hkf
      · rw [Function.update_self, hpc]
        rfl
      · rw [Function.update_of_ne hkf, Function.update_of_ne hkg]
    · simp only [State.goto]
      rw [Function.update_of_ne hgf, Function.update_self, hgranted]
  | none =>
    obtain ⟨rfl, hnone⟩ := unblock_none hu
    have hnil : waiters s = [] := by
      rw [waiters, List.filter_eq_nil_iff]
      intro k hk
      rw [hnone k hk]
      exact Bool.false_ne_true
    refine .inr ⟨hnil, ?_, rfl⟩
    exact (waiters_goto (s := { s with owner := none }) rfl (by rw [hpc]; rfl)).trans hnil

/-- STEP: what happens to the waiters. -/
theorem queued_step (h : Inv true s) (hs : step true s a = some s') : Queued s s' := by
  cases a with
  | acquire f mode =>
    obtain ⟨hpc, hs⟩ := Option.ite_none_right_eq_some.mp hs
    obtain rfl := Option.some.inj hs
    exact .same (waiters_goto rfl (by rw [hpc]; rfl)) (obtained_same rfl)
  | lock f ahead =>
    simp only [step] at hs
    split at hs
    · rename_i mode hpc
      obtain rfl := Option.some.inj hs
      exact queued_lock h hpc
    · cases hs
  | timer f =>
    obtain ⟨hpc, hs⟩ := Option.ite_none_right_eq_some.mp hs
    obtain rfl := Option.some.inj hs
    exact queued_timer hpc
  | cancel f =>
    obtain ⟨hpc, hs⟩ := Option.ite_none_right_eq_some.mp hs
    obtain rfl := Option.some.inj hs
    exact queued_cancel h hpc
  | release f =>
    obtain ⟨hpc, hs⟩ := Option.ite_none_right_eq_some.mp hs
    obtain rfl := Option.some.inj hs
    have howner := (h.owner f).mpr (by rw [hpc]; rfl)
    rcases release_first h hpc with ⟨g, hwaiters, hown, hg⟩ | ⟨hnil, hnil', hown⟩
    · refine .passed g hwaiters hg (obtained_new hown fun hfg => ?_)
      have hwaits := (mem_waiters h).mp (hwaiters ▸ List.mem_cons_self (a := g))
      obtain rfl := Option.some.inj (howner.symm.trans hfg)
      rw [hpc] at hwaits
      cases hwaits
    · refine .same (hnil'.trans hnil.symm) ?_
      rw [obtained, hown, howner]
      rfl
  | resume f =>
    simp only [step] at hs
    split at hs
    · rename_i g hpc
      split at hs
      · rename_i mode hg
        obtain rfl := Option.some.inj hs
        have hne : f ≠ g := by
          rintro rfl
          rw [hpc] at hg
          cases hg
        refine .same ?_ (obtained_same rfl)
        rw [waiters_goto rfl (by rw [goto_other hne, hpc]; rfl),
          waiters_goto rfl (by rw [hg]; rfl)]
      · cases hs
    · cases hs
  | run f =>
    simp only [step] at hs
    split at hs
    · rename_i mode hpc
      obtain rfl := Option.some.inj hs
      exact .same (waiters_goto rfl (by rw [hpc]; rfl)) (obtained_same rfl)
    · cases hs

/-- STEP: as long as a fibre waits, only those in front of it obtain the mutex. -/
theorem ahead_step (h : Inv true s) (hf : (s.pc f).waits = true) (hf' : (s'.pc f).waits = true)
    (hs : step true s a = some s') :
    ((obtained s s').toList ++ ahead f (waiters s')).Sublist (ahead f (waiters s)) := by
  have hmem := (mem_waiters h).mpr hf
  rcases queued_step h hs with ⟨hw, ho⟩ | ⟨g, hw, ho⟩ | ⟨g, hw, hg, ho⟩ | ⟨g, howner, -, -⟩ | ⟨g, hw, hg, ho⟩
  · rw [ho, hw]
    exact List.Sublist.refl _
  · rw [ho, hw, ahead_append hmem]
    exact List.Sublist.refl _
  · have hgf : g ≠ f := by
      rintro rfl
      rw [hf'] at hg
      cases hg
    rw [ho, hw, ahead_filter hgf]
    exact List.filter_sublist
  · obtain ⟨hfifo, -⟩ := h.awake howner ⟨f, hf⟩
    cases hfifo
  · have hgf : g ≠ f := by
      rintro rfl
      rw [hf'] at hg
      cases hg
    have hcons : ahead f (g :: waiters s') = g :: ahead f (waiters s') := by simp [ahead, hgf]
    rw [ho, hw, hcons]
    exact List.Sublist.refl _

/-- The same along a stretch of steps. -/
theorem ahead_along : ∀ (as : List (Action F)) (s t : State F), Inv true s →
    exec (system F true) s as = some t →
    Along (system F true) (fun s => (s.pc f).waits = true) s as →
    (trace (system F true) obtained s as ++ ahead f (waiters t)).Sublist (ahead f (waiters s))
  | [], s, t, _, he, _ => by
    rw [exec_nil, Option.some.injEq] at he
    rw [he]
    exact List.Sublist.refl _
  | a :: as, s, t, hi, he, hal => by
    obtain ⟨u, hu, he⟩ := exec_cons_some he
    have hrest := ahead_along as u t (hi.step hu) he (hal.2 u hu)
    rw [trace_cons hu, List.append_assoc]
    exact (hrest.append_left _).trans (ahead_step hi hal.here (hal.2 u hu).here hu)

/-! ### Every reachable state -/

/-- What the mutex is for. -/
structure Mutex (fifo : Bool) (s : State F) : Prop where
  owner : ∀ f, s.owner = some f ↔ (s.pc f).owns fifo = true
  exclusive : ∀ f g, s.pc f = .own → s.pc g = .own → f = g
  awake : s.owner = none → (∀ f, s.pc f = .out ∨ (s.pc f).waits = true) → ∀ f, (s.pc f).waits = false
  resumes : ∀ f g, s.pc f = .waking g → (step fifo s (.resume f)).isSome = true
  first : fifo = true → ∀ f s', step fifo s (.release f) = some s' → s'.owner = (waiters s).head?
  order : fifo = true → ∀ f as t, exec (system F fifo) s as = some t →
    Along (system F fifo) (fun s => (s.pc f).waits = true) s as →
    (trace (system F fifo) obtained s as ++ ahead f (waiters t)).Sublist (ahead f (waiters s))

theorem Inv.mutex (h : Inv fifo s) : Mutex fifo s := by
  refine ⟨h.owner, fun f g hf hg => ?_, fun hn hall f => ?_, fun f g hf => ?_, fun hfifo f s' hs => ?_,
    fun hfifo f as t he hal => ?_⟩
  · have howner := (h.owner f).mpr (by rw [hf]; rfl)
    rw [(h.owner g).mpr (by rw [hg]; rfl)] at howner
    exact (Option.some.inj howner).symm
  · rw [Bool.eq_false_iff]
    intro hf
    obtain ⟨-, g, hg⟩ := h.awake hn ⟨f, hf⟩
    rcases hall g with hout | hwaits
    · rw [hout] at hg
      cases hg
    · cases hpc : s.pc g with
      | blocked mode => rw [hpc] at hg; cases hg
      | _ => rw [hpc] at hwaits; cases hwaits
  · have hg := h.waking f g hf
    cases hpc : s.pc g with
    | granted mode => simp [LockedMutex.step, hf, hpc]
    | _ => rw [hpc] at hg; cases hg
  · subst hfifo
    obtain ⟨hpc, hs⟩ := Option.ite_none_right_eq_some.mp hs
    obtain rfl := Option.some.inj hs
    rcases release_first h hpc with ⟨g, hwaiters, hown, -⟩ | ⟨hnil, -, hown⟩
    · rw [hown, hwaiters]
      rfl
    · rw [hown, hnil]
      rfl
  · subst hfifo
    exact ahead_along as s t h he hal

/-- RUN: exclusion, no lost wake-up, and the order of `Fifo`, whatever the order of the steps. -/
theorem locked_mutex (h : Reach (system F fifo) s) : Mutex fifo s := by
  have hinv : Inv fifo s :=
    h.inv (fun s h0 => by cases h0; exact inv_init) fun _ _ _ hi hs => hi.step hs
  exact hinv.mutex

/-- Two fibres block behind a third, which passes the mutex to the first of them. -/
theorem locked_mutex_three : ∃ s : State (Fin 3), Reach (system (Fin 3) true) s ∧
    (waiters s = [2] ∧ s.owner = some 1) ∧ Mutex true s := by
  obtain ⟨s, hs, hp⟩ := reach_of_exec (system (Fin 3) true) State.init
    [.acquire 0 .plain, .lock 0 true, .acquire 1 .timed, .lock 1 true, .acquire 2 .plain, .lock 2 true,
      .release 0]
    (fun s => decide (waiters s = [2] ∧ s.owner = some 1)) rfl (by decide)
  exact ⟨s, hs, of_decide_eq_true hp, locked_mutex hs⟩

end Libfibre.LockedMutex
