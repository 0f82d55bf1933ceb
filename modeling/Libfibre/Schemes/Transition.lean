import Mathlib.Data.List.Basic
import Mathlib.Logic.Function.Basic

/-! Programs as labelled transition systems with an executable step function. An action names one
    atomic step of one party; an interleaving is a list of actions, and `exec` runs it. The two
    induction principles of every development over it are `Run.inv` (what each step preserves holds
    in every state reached, for the runs whose steps meet a condition) and `Along.of_last` (what can
    never be regained holds all along a stretch if it holds at its end). -/

namespace Libfibre.Transition

/-- A program: its initial states and its step function (`none`: the action is not enabled). -/
structure System (σ α : Type) where
  init : σ → Prop
  step : σ → α → Option σ

variable {σ α : Type} (M : System σ α)

/-- Run a list of actions, each one enabled where it is taken. -/
def exec : σ → List α → Option σ
  | s, [] => some s
  | s, a :: as => (M.step s a).bind fun s' => exec s' as

/-- Runs from an initial state, each step of which meets `G` in the state before it. -/
inductive Run (G : σ → α → Prop) : List α → σ → Prop
  | start {s : σ} : M.init s → Run G [] s
  | step {as : List α} {s s' : σ} {a : α} :
      Run G as s → G s a → M.step s a = some s' → Run G (as ++ [a]) s'

/-- The condition that restricts nothing. -/
def Free : σ → α → Prop := fun _ _ => True

/-- The condition that no step is `bad` in the state it is taken. -/
def Avoids (bad : σ → α → Bool) : σ → α → Prop := fun s a => bad s a = false

/-- Run a list of actions, refusing the bad ones. -/
def execAvoiding (bad : σ → α → Bool) : σ → List α → Option σ
  | s, [] => some s
  | s, a :: as => if bad s a then none else (M.step s a).bind fun s' => execAvoiding bad s' as

/-- How many steps of a list of actions are of the kind `p`. -/
def times (p : σ → α → Bool) : σ → List α → ℕ
  | _, [] => 0
  | s, a :: as =>
    (if p s a then 1 else 0) +
      match M.step s a with
      | some s' => times p s' as
      | none => 0

/-- What the steps of a list of actions show, in their order. -/
def trace {β : Type} (seen : σ → σ → Option β) : σ → List α → List β
  | _, [] => []
  | s, a :: as =>
    match M.step s a with
    | some s' => (seen s s').toList ++ trace seen s' as
    | none => []

/-- `s` is reached by some interleaving. -/
def Reach (s : σ) : Prop := ∃ as, Run M Free as s

/-- `P` holds in every state a stretch of actions passes through, its two ends included. -/
def Along (P : σ → Prop) : σ → List α → Prop
  | s, [] => P s
  | s, a :: as => P s ∧ ∀ s', M.step s a = some s' → Along P s' as

variable {M}

@[simp] theorem exec_nil (s : σ) : exec M s [] = some s := rfl

@[simp] theorem exec_cons (s : σ) (a : α) (as : List α) :
    exec M s (a :: as) = (M.step s a).bind fun s' => exec M s' as := rfl

theorem exec_cons_some {s t : σ} {a : α} {as : List α} (h : exec M s (a :: as) = some t) :
    ∃ s', M.step s a = some s' ∧ exec M s' as = some t := by
  rw [exec_cons] at h
  exact Option.bind_eq_some_iff.mp h

theorem times_cons {p : σ → α → Bool} {s s' : σ} {a : α} (h : M.step s a = some s') (as : List α) :
    times M p s (a :: as) = (if p s a then 1 else 0) + times M p s' as := by
  rw [times, h]

theorem trace_cons {β : Type} {seen : σ → σ → Option β} {s s' : σ} {a : α} (h : M.step s a = some s')
    (as : List α) : trace M seen s (a :: as) = (seen s s').toList ++ trace M seen s' as := by
  rw [trace, h]

/-- INVARIANT: what the initial states have and every admitted step keeps holds in every state
    reached. -/
theorem Run.inv {G : σ → α → Prop} {I : σ → Prop} (hinit : ∀ s, M.init s → I s)
    (hstep : ∀ s a s', I s → G s a → M.step s a = some s' → I s') {as : List α} {s : σ}
    (h : Run M G as s) : I s := by
  induction h with
  | start h0 => exact hinit _ h0
  | step _ hg hs ih => exact hstep _ _ _ ih hg hs

theorem Reach.inv {I : σ → Prop} (hinit : ∀ s, M.init s → I s)
    (hstep : ∀ s a s', I s → M.step s a = some s' → I s') {s : σ} (h : Reach M s) : I s := by
  obtain ⟨as, h⟩ := h
  exact h.inv hinit fun s a s' hI _ hs => hstep s a s' hI hs

theorem Run.mono {G H : σ → α → Prop} (hGH : ∀ s a, G s a → H s a) {as : List α} {s : σ}
    (h : Run M G as s) : Run M H as s := by
  induction h with
  | start h0 => exact .start h0
  | step _ hg hs ih => exact .step ih (hGH _ _ hg) hs

theorem Reach.start {s : σ} (h : M.init s) : Reach M s := ⟨[], .start h⟩

theorem Reach.step {s s' : σ} {a : α} (h : Reach M s) (hs : M.step s a = some s') :
    Reach M s' := by
  obtain ⟨as, h⟩ := h
  exact ⟨as ++ [a], .step h trivial hs⟩

/-- An executed list of actions extends a reached state to a reached state. -/
theorem Reach.exec {s t : σ} {as : List α} (h : Reach M s) (he : exec M s as = some t) :
    Reach M t := by
  induction as generalizing s with
  | nil => rw [exec_nil, Option.some.injEq] at he; exact he ▸ h
  | cons a as ih =>
    obtain ⟨s', hs, he⟩ := exec_cons_some he
    exact ih (h.step hs) he

theorem inv_exec {I : σ → Prop} (hkeep : ∀ s a s', I s → M.step s a = some s' → I s') {s t : σ}
    {as : List α} (hs : I s) (he : Transition.exec M s as = some t) : I t := by
  induction as generalizing s with
  | nil => rw [exec_nil, Option.some.injEq] at he; exact he ▸ hs
  | cons a as ih =>
    obtain ⟨s', hstep, he⟩ := exec_cons_some he
    exact ih (hkeep s a s' hs hstep) he

/-- A weight that grows with the steps of one kind and shrinks with those of another tells how many of
    the first have not been made up for. -/
theorem times_balance {I : σ → Prop} {p q : σ → α → Bool} {μ : σ → ℕ}
    (hkeep : ∀ s a s', I s → M.step s a = some s' → I s')
    (hstep : ∀ s a s', I s → M.step s a = some s' →
      (if p s a then 1 else 0) + μ s = (if q s a then 1 else 0) + μ s') {s t : σ} {as : List α}
    (hs : I s) (he : Transition.exec M s as = some t) :
    times M p s as + μ s = times M q s as + μ t := by
  induction as generalizing s with
  | nil => rw [exec_nil, Option.some.injEq] at he; rw [he]; rfl
  | cons a as ih =>
    obtain ⟨s', ha, he⟩ := exec_cons_some he
    have hrest := ih (hkeep s a s' hs ha) he
    have hhere := hstep s a s' hs ha
    rw [times_cons ha, times_cons ha]
    omega

/-- A test that the last state of an executed list passes is passed by some reached state. -/
theorem reach_of_exec (M : System σ α) (s : σ) (as : List α) (p : σ → Bool) (h0 : M.init s)
    (h : (Transition.exec M s as).map p = some true) : ∃ t, Reach M t ∧ p t = true := by
  obtain ⟨t, ht, hp⟩ := Option.map_eq_some_iff.mp h
  exact ⟨t, (Reach.start h0).exec ht, hp⟩

/-- The same for the runs that avoid what is bad. -/
theorem run_of_execAvoiding (M : System σ α) (bad : σ → α → Bool) (s : σ) (as : List α)
    (p : σ → Bool) (h0 : M.init s) (h : (execAvoiding M bad s as).map p = some true) :
    ∃ t, Run M (Avoids bad) as t ∧ p t = true := by
  suffices hrun : ∀ (bs front : List α) (u : σ), Run M (Avoids bad) front u →
      (execAvoiding M bad u bs).map p = some true →
      ∃ t, Run M (Avoids bad) (front ++ bs) t ∧ p t = true by
    exact hrun as [] s (.start h0) h
  intro bs
  induction bs with
  | nil =>
    intro front u hu hp
    rw [execAvoiding, Option.map_some, Option.some.injEq] at hp
    exact ⟨u, by rwa [List.append_nil], hp⟩
  | cons b bs ih =>
    intro front u hu hp
    cases hb : bad u b with
    | true => rw [execAvoiding, hb] at hp; cases hp
    | false =>
      rw [execAvoiding, hb] at hp
      cases hstep : M.step u b with
      | none => rw [hstep] at hp; cases hp
      | some v =>
        rw [hstep] at hp
        rw [List.append_cons]
        exact ih (front ++ [b]) v (.step hu hb hstep) hp

theorem Along.here {P : σ → Prop} {s : σ} {as : List α} (h : Along M P s as) : P s := by
  cases as with
  | nil => exact h
  | cons a as => exact h.1

theorem exec_append (s : σ) (as bs : List α) :
    exec M s (as ++ bs) = (exec M s as).bind fun t => exec M t bs := by
  induction as generalizing s with
  | nil => rfl
  | cons a as ih =>
    rw [List.cons_append, exec_cons, exec_cons, Option.bind_assoc]
    exact congrArg _ (funext fun s' => ih s')

theorem exec_concat {s t : σ} {as : List α} (h : exec M s as = some t) (a : α) :
    exec M s (as ++ [a]) = M.step t a := by
  rw [exec_append, h, Option.bind_some, exec_cons]
  exact Option.bind_fun_some _

/-- SIMULATION: if what a step makes of a state shows the same as the step of another program makes of
    what the state shows, so it is with whole lists of actions. -/
theorem exec_map {τ : Type} {N : System τ α} {f : σ → τ}
    (hstep : ∀ s a, (M.step s a).map f = N.step (f s) a) (s : σ) (as : List α) :
    (exec M s as).map f = exec N (f s) as := by
  induction as generalizing s with
  | nil => rfl
  | cons a as ih =>
    rw [exec_cons, exec_cons, ← hstep, Option.map_bind, Option.bind_map]
    exact congrArg _ (funext ih)

/-- A run from the one initial state executes its actions. -/
theorem Run.exec {G : σ → α → Prop} {s0 t : σ} {as : List α} (h : Run M G as t)
    (hinit : ∀ s, M.init s → s = s0) : exec M s0 as = some t := by
  induction h with
  | start hs => rw [hinit _ hs]; rfl
  | step _ _ hstep ih => exact (exec_concat ih _).trans hstep

theorem Along.concat {P : σ → Prop} {s t u : σ} {as : List α} {a : α} (h : Along M P s as)
    (he : exec M s as = some t) (hstep : M.step t a = some u) (hu : P u) :
    Along M P s (as ++ [a]) := by
  induction as generalizing s with
  | nil =>
    rw [exec_nil, Option.some.injEq] at he
    subst he
    refine ⟨h, fun s' hs' => ?_⟩
    rw [hstep, Option.some.injEq] at hs'
    exact hs' ▸ hu
  | cons b as ih =>
    obtain ⟨s', hs, he⟩ := exec_cons_some he
    refine ⟨h.1, fun s'' hs'' => ?_⟩
    rw [hs, Option.some.injEq] at hs''
    subst hs''
    exact ih (h.2 s' hs) he

/-- EXACTLY WHEN: what holds as long as the steps meet `G`, and fails after the first one that does
    not, holds all along exactly the runs whose steps all meet `G`. -/
theorem along_iff_run {G : σ → α → Prop} {I P : σ → Prop} {s0 t : σ} {as : List α}
    (hinit : ∀ s, M.init s ↔ s = s0) (h0 : I s0) (hP : ∀ s, I s → P s)
    (hkeep : ∀ s a s', I s → G s a → M.step s a = some s' → I s')
    (hbreak : ∀ s a s', I s → M.step s a = some s' → P s' → G s a) (he : exec M s0 as = some t) :
    Along M P s0 as ↔ Run M G as t := by
  constructor
  · intro h
    suffices hrun : ∀ (bs front : List α) (u : σ), Run M G front u → I u → Along M P u bs →
        exec M u bs = some t → Run M G (front ++ bs) t by
      exact hrun as [] s0 (.start ((hinit s0).mpr rfl)) h0 h he
    intro bs
    induction bs with
    | nil =>
      intro front u hu _ _ he
      rw [exec_nil, Option.some.injEq] at he
      rw [List.append_nil]
      exact he ▸ hu
    | cons b bs ih =>
      intro front u hu hI hall he
      obtain ⟨v, hstep, he⟩ := exec_cons_some he
      have hG : G u b := hbreak u b v hI hstep (hall.2 v hstep).here
      rw [List.append_cons]
      exact ih (front ++ [b]) v (.step hu hG hstep) (hkeep u b v hI hG hstep) (hall.2 v hstep) he
  · intro h
    suffices hrun : I t ∧ Along M P s0 as by exact hrun.2
    clear he
    induction h with
    | start hs =>
      obtain rfl := (hinit _).mp hs
      exact ⟨h0, hP _ h0⟩
    | step hrun hG hstep ih =>
      obtain ⟨hI, hall⟩ := ih
      have hI' := hkeep _ _ _ hI hG hstep
      exact ⟨hI', hall.concat (hrun.exec fun s hs => (hinit s).mp hs) hstep (hP _ hI')⟩

/-- `Along` for a test, as a test. -/
def along (M : System σ α) (p : σ → Bool) : σ → List α → Bool
  | s, [] => p s
  | s, a :: as => p s && ((M.step s a).map fun s' => along M p s' as).getD true

theorem Along.of_along {p : σ → Bool} {s : σ} {as : List α} (h : along M p s as = true) :
    Along M (fun s => p s = true) s as := by
  induction as generalizing s with
  | nil => exact h
  | cons a as ih =>
    rw [along, Bool.and_eq_true] at h
    refine ⟨h.1, fun s' hs => ih ?_⟩
    rw [hs] at h
    exact h.2

theorem Along.drop {P : σ → Prop} {s t : σ} {as bs : List α} (h : Along M P s (as ++ bs))
    (he : exec M s as = some t) : Along M P t bs := by
  induction as generalizing s with
  | nil => rw [exec_nil, Option.some.injEq] at he; exact he ▸ h
  | cons a as ih =>
    obtain ⟨s', hs, he⟩ := exec_cons_some he
    exact ih (h.2 s' hs) he

theorem Along.last {P : σ → Prop} {s t : σ} {as : List α} (h : Along M P s as)
    (he : exec M s as = some t) : P t := by
  have h' : Along M P s (as ++ []) := by rwa [List.append_nil]
  exact (h'.drop he).here

/-- What no step of the stretch can establish and its last state has, all its states have. -/
theorem Along.of_last {I P : σ → Prop} {s t : σ} {as : List α}
    (hkeep : ∀ s a s', I s → M.step s a = some s' → I s')
    (hback : ∀ a ∈ as, ∀ s s', I s → M.step s a = some s' → P s' → P s)
    (hs : I s) (he : exec M s as = some t) (ht : P t) : Along M P s as := by
  induction as generalizing s with
  | nil => rw [exec_nil, Option.some.injEq] at he; exact he ▸ ht
  | cons a as ih =>
    obtain ⟨s', hstep, he⟩ := exec_cons_some he
    have hP' : Along M P s' as :=
      ih (fun b hb => hback b (List.mem_cons_of_mem _ hb)) (hkeep s a s' hs hstep) he
    refine ⟨hback a (List.mem_cons_self ..) s s' hs hstep hP'.here, fun s'' hs'' => ?_⟩
    rw [hstep, Option.some.injEq] at hs''
    exact hs'' ▸ hP'

/-- What every step of some party does that ends in `W`, its steps along a stretch of `W` do. -/
theorem Along.own_steps {I W : σ → Prop} {U : σ → σ → Prop} {own : α → Prop} {s : σ} {as : List α}
    (h : Along M W s as) (hkeep : ∀ s a s', I s → M.step s a = some s' → I s')
    (hown : ∀ s a s', I s → own a → M.step s a = some s' → W s' → U s s') (hs : I s)
    (front : List α) (b : α) (back : List α) (u u' : σ) (has : as = front ++ b :: back)
    (hfront : exec M s front = some u) (hb : M.step u b = some u') (hmine : own b) : U u u' := by
  subst has
  have hrest : Along M W u' back := (h.drop hfront).2 u' hb
  exact hown u b u' (inv_exec hkeep hs hfront) hmine hb hrest.here

end Libfibre.Transition
