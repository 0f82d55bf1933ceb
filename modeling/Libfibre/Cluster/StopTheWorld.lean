import Mathlib.Tactic.SplitIfs
import Mathlib.Data.Fintype.Card
import Libfibre.Cluster.Pause
import Libfibre.Schemes.Threads

/-! The world is stopped when `pause` returns. No worker is bound to its pause fibre, so the guarantee
    is a count: `N - 1` fibres have confirmed, each of them blocks the worker that it runs at, and the
    worker of the caller runs none of them. -/

namespace Libfibre.StopTheWorld
open Transition Tally

variable {W : Type}

/-! ### The counts -/

def Fib.is (q p : Fib) : ℕ := if p = q then 1 else 0

def Work.at (o : Op) : Work W → ℕ
  | .pause _ op => if op = o then 1 else 0
  | _ => 0

def Phase.pausing : Phase W → Bool
  | .creating _ | .confirming _ => true
  | _ => false

/-- From the return of `pause` to the last `V` of `resume`. -/
def Phase.stopping : Phase W → Bool
  | .paused | .resuming _ => true
  | _ => false

section Counts
variable [Fintype W]

/-- How many pause fibres are at `q`. -/
def State.fibs (s : State W) (q : Fib) : ℕ := tally (Fib.is q) s.fib

/-- How many workers are at `o` in `pauseOperation`. -/
def State.workers (s : State W) (o : Op) : ℕ := tally (Work.at o) s.work

/-- The pause fibres that the loop has still to create. -/
def State.missing [DecidableEq W] (s : State W) (todo : List W) : ℕ :=
  (todo.filter fun f => some f ≠ s.home).length

/-- INVARIANT: the two semaphores against the pause fibres, phase by phase. -/
def Balanced [DecidableEq W] (s : State W) : Prop :=
  match s.phase with
  | .out =>
    s.pauseConfirmSem = 0 ∧ s.pauseSem = 0 ∧ s.fibs .ready = 0 ∧ s.workers .starting = 0 ∧
      s.workers .waiting = 0 ∧ s.workers .leaving = 0 ∧ s.fibs .done = 0
  | .creating todo =>
    s.pauseConfirmSem = s.workers .waiting ∧ s.pauseSem = 0 ∧ s.workers .leaving = 0 ∧
      s.fibs .done = 0 ∧
      s.fibs .ready + s.workers .starting + s.workers .waiting = s.pauseFibres.length ∧
      s.pauseFibres.length + s.missing todo + 1 = Fintype.card W
  | .confirming p =>
    1 ≤ p ∧ s.pauseConfirmSem + p = s.workers .waiting + 1 ∧ s.pauseSem = 0 ∧
      s.workers .leaving = 0 ∧ s.fibs .done = 0 ∧
      s.fibs .ready + s.workers .starting + s.workers .waiting = s.pauseFibres.length ∧
      s.pauseFibres.length + 1 = Fintype.card W
  | .paused =>
    s.pauseConfirmSem = 0 ∧ s.pauseSem = 0 ∧ s.fibs .ready = 0 ∧ s.workers .starting = 0 ∧
      s.workers .leaving = 0 ∧ s.fibs .done = 0 ∧ s.workers .waiting = s.pauseFibres.length ∧
      s.pauseFibres.length + 1 = Fintype.card W
  | .resuming p =>
    p ≤ Fintype.card W ∧ s.pauseConfirmSem = 0 ∧ s.fibs .ready = 0 ∧ s.workers .starting = 0 ∧
      s.pauseSem + s.workers .leaving + s.fibs .done + 1 = p ∧
      s.workers .waiting + s.workers .leaving + s.fibs .done = s.pauseFibres.length ∧
      s.pauseFibres.length + 1 = Fintype.card W
  | .deleting todo =>
    s.pauseConfirmSem = 0 ∧ s.fibs .ready = 0 ∧ s.workers .starting = 0 ∧
      s.pauseSem = s.workers .waiting ∧
      s.workers .waiting + s.workers .leaving + s.fibs .done = todo.length

/-- A pause fibre is never lost, and each passes both semaphores once. -/
structure Advanced (s s' : State W) : Prop where
  phase : s'.phase = s.phase
  home : s'.home = s.home
  created : s'.pauseFibres = s.pauseFibres
  ready : s'.fibs .ready ≤ s.fibs .ready
  starting : s'.fibs .ready + s'.workers .starting ≤ s.fibs .ready + s.workers .starting
  total : s'.fibs .ready + s'.workers .starting + s'.workers .waiting + s'.workers .leaving
      + s'.fibs .done
    = s.fibs .ready + s.workers .starting + s.workers .waiting + s.workers .leaving + s.fibs .done
  confirmed : s'.pauseConfirmSem + s.workers .waiting + s.workers .leaving + s.fibs .done
    = s.pauseConfirmSem + s'.workers .waiting + s'.workers .leaving + s'.fibs .done
  passed : s'.pauseSem + s'.workers .leaving + s'.fibs .done
    = s.pauseSem + s.workers .leaving + s.fibs .done
  active : s'.fibs .running + s.workers .starting + s.workers .waiting + s.workers .leaving
    = s.fibs .running + s'.workers .starting + s'.workers .waiting + s'.workers .leaving

end Counts

/-- INVARIANT: every worker has its place in the ring. -/
structure Ring (s : State W) : Prop where
  nodup : s.ring.Nodup
  complete : ∀ w, w ∈ s.ring

/-- INVARIANT: a pause fibre runs at one worker, and the loop creates each of them once. -/
structure Placed (s : State W) : Prop where
  running : ∀ w f op, s.work w = .pause f op → s.fib f = .running
  unique : ∀ w v f op op', s.work w = .pause f op → s.work v = .pause f op' → w = v
  todo : ∀ todo, s.phase = .creating todo → todo.Nodup ∧ ∀ f ∈ todo, s.fib f = .absent

/-- INVARIANT: where the caller is. -/
structure Called (s : State W) : Prop where
  unique : ∀ w v, s.work w = .caller → s.work v = .caller → w = v
  suspended : s.suspended = true → ∀ w, s.work w ≠ .caller
  out : s.phase = .out → (∀ w, s.work w ≠ .caller) ∧ s.suspended = false ∧ s.home = none ∧
    s.pauseFibres = []
  pausing : s.phase.pausing = true → ∃ c, s.home = some c ∧ s.work c = .caller
  stopping : s.phase.stopping = true → ∃ c, s.home = some c ∧ ∀ f op, s.work c ≠ .pause f op

/-! ### One worker moves -/

section Steps
variable [DecidableEq W] {s s' : State W} {w f : W} {k : Work W} {p : Fib}

theorem workers_shift [Fintype W] (hwork : s'.work = Function.update s.work w k) (o : Op) :
    s'.workers o + (s.work w).at o = s.workers o + k.at o := by
  rw [State.workers, hwork]
  exact tally_update ..

theorem fibs_shift [Fintype W] (hfib : s'.fib = Function.update s.fib f p) (q : Fib) :
    s'.fibs q + Fib.is q (s.fib f) = s.fibs q + Fib.is q p := by
  rw [State.fibs, hfib]
  exact tally_update ..

theorem Ring.card [Fintype W] (h : Ring s) : s.ring.length = Fintype.card W := by
  rw [← List.toFinset_card_of_nodup h.nodup, ← Finset.card_univ]
  congr 1
  ext w
  simp [h.complete]

/-- The other workers of the ring. -/
theorem Ring.missing {r : State W} [Fintype W] (h : Ring s) (hhome : r.home = some w) :
    r.missing s.ring + 1 = Fintype.card W := by
  have hfilter : (s.ring.filter fun f => some f ≠ r.home) = s.ring.erase w := by
    rw [h.nodup.erase_eq_filter, hhome]
    congr 1
    funext f
    by_cases hf : f = w <;> simp [hf]
  have hlength := List.length_erase_add_one (h.complete w)
  rw [State.missing, hfilter, ← h.card, hlength]

/-- No pause fibre changes its worker. -/
theorem Placed.goto (h : Placed s) (hwork : s'.work = Function.update s.work w k)
    (hfib : s'.fib = s.fib) (hk : ∀ f op, k = .pause f op → ∃ op', s.work w = .pause f op')
    (htodo : ∀ todo, s'.phase = .creating todo → todo.Nodup ∧ ∀ f ∈ todo, s.fib f = .absent) :
    Placed s' := by
  have hback : ∀ v f op, s'.work v = .pause f op → ∃ op', s.work v = .pause f op' := by
    intro v f op hv
    rw [hwork] at hv
    rcases eq_or_ne v w with rfl | hne
    · rw [Function.update_self] at hv
      exact hk f op hv
    · rw [Function.update_of_ne hne] at hv
      exact ⟨op, hv⟩
  refine ⟨fun v f op hv => ?_, fun v u f op op' hv hu => ?_, fun todo hp => ?_⟩
  · obtain ⟨op', hv⟩ := hback v f op hv
    rw [hfib]
    exact h.running v f op' hv
  · obtain ⟨_, hv⟩ := hback v f op hv
    obtain ⟨_, hu⟩ := hback u f op' hu
    exact h.unique v u f _ _ hv hu
  · rw [hfib]
    exact htodo todo hp

theorem Placed.schedule (h : Placed s) (hw : s.work w = .other) (hf : s.fib f = .ready) :
    Placed ((s.goto w (.pause f .starting)).setFib f .running) := by
  have hnot : ∀ v op, s.work v ≠ .pause f op := by
    intro v op hv
    have hrun := h.running v f op hv
    rw [hf] at hrun
    cases hrun
  refine ⟨fun v g op hv => ?_, fun v u g op op' hv hu => ?_, fun todo hp => ?_⟩
  · simp only [State.goto, State.setFib] at hv ⊢
    rcases eq_or_ne g f with rfl | hg
    · rw [Function.update_self]
    · rw [Function.update_of_ne hg]
      rcases eq_or_ne v w with rfl | hne
      · rw [Function.update_self, Work.pause.injEq] at hv
        exact absurd hv.1.symm hg
      · rw [Function.update_of_ne hne] at hv
        exact h.running v g op hv
  · simp only [State.goto, State.setFib] at hv hu
    rcases eq_or_ne v w with rfl | hv' <;> rcases eq_or_ne u v with rfl | hu'
    · rfl
    · rw [Function.update_self, Work.pause.injEq] at hv
      obtain ⟨rfl, -⟩ := hv
      rw [Function.update_of_ne hu'] at hu
      exact absurd hu (hnot u op')
    · rfl
    · rw [Function.update_of_ne hv'] at hv
      rcases eq_or_ne u w with rfl | hu''
      · rw [Function.update_self, Work.pause.injEq] at hu
        obtain ⟨rfl, -⟩ := hu
        exact absurd hv (hnot v op)
      · rw [Function.update_of_ne hu''] at hu
        exact h.unique v u g op op' hv hu
  · obtain ⟨hnodup, habsent⟩ := h.todo todo hp
    refine ⟨hnodup, fun g hg => ?_⟩
    have hgf : g ≠ f := by
      rintro rfl
      have := habsent g hg
      rw [hf] at this
      cases this
    simp only [State.goto, State.setFib, Function.update_of_ne hgf]
    exact habsent g hg

theorem Placed.finish {op : Op} (h : Placed s) (hw : s.work w = .pause f op) :
    Placed ((s.goto w .other).setFib f .done) := by
  have hother : ∀ v g o, Function.update s.work w .other v = .pause g o → g ≠ f ∧ s.work v = .pause g o := by
    intro v g o hv
    obtain ⟨hne, hv⟩ := Threads.stayed hv nofun
    refine ⟨?_, hv⟩
    rintro rfl
    exact hne (h.unique v w g _ _ hv hw)
  refine ⟨fun v g o hv => ?_, fun v u g o o' hv hu => ?_, fun todo hp => ?_⟩
  · obtain ⟨hg, hv⟩ := hother v g o hv
    simp only [State.goto, State.setFib, Function.update_of_ne hg]
    exact h.running v g o hv
  · exact h.unique v u g o o' (hother v g o hv).2 (hother u g o' hu).2
  · obtain ⟨hnodup, habsent⟩ := h.todo todo hp
    refine ⟨hnodup, fun g hg => ?_⟩
    have hgf : g ≠ f := by
      rintro rfl
      have hrun := h.running w g op hw
      rw [habsent g hg] at hrun
      cases hrun
    simp only [State.goto, State.setFib, Function.update_of_ne hgf]
    exact habsent g hg

/-- A pause fibre that runs nowhere changes. -/
theorem Placed.setFib (h : Placed s) (hf : s.fib f ≠ .running) (hwork : s'.work = s.work)
    (hfib : s'.fib = Function.update s.fib f p)
    (htodo : ∀ todo, s'.phase = .creating todo → todo.Nodup ∧ ∀ g ∈ todo, s'.fib g = .absent) :
    Placed s' := by
  refine ⟨fun v g op hv => ?_, fun v u g op op' hv hu => ?_, htodo⟩
  · rw [hwork] at hv
    have hrun := h.running v g op hv
    have hg : g ≠ f := by
      rintro rfl
      exact hf hrun
    rw [hfib, Function.update_of_ne hg]
    exact hrun
  · rw [hwork] at hv hu
    exact h.unique v u g op op' hv hu

/-- A worker that the caller is not at takes up something else. -/
theorem Called.goto (h : Called s) (hwork : s'.work = Function.update s.work w k)
    (hw : s.work w ≠ .caller) (hk : k ≠ .caller)
    (hrest : s'.suspended = s.suspended ∧ s'.phase = s.phase ∧ s'.home = s.home ∧
      s'.pauseFibres = s.pauseFibres)
    (hpause : s.phase.stopping = true → ∀ f op, k = .pause f op → ∃ op', s.work w = .pause f op') :
    Called s' := by
  obtain ⟨hsuspended, hphase, hhome, hfibres⟩ := hrest
  have hcaller : ∀ v, s'.work v = .caller ↔ s.work v = .caller := by
    rw [hwork]
    exact Threads.at_iff (iff_of_false hk hw)
  refine ⟨fun v u hv hu => ?_, fun hs v => ?_, fun hp => ?_, fun hp => ?_, fun hp => ?_⟩
  · exact h.unique v u ((hcaller v).mp hv) ((hcaller u).mp hu)
  · rw [hsuspended] at hs
    exact fun hv => h.suspended hs v ((hcaller v).mp hv)
  · rw [hphase] at hp
    rw [hsuspended, hhome, hfibres]
    exact ⟨fun v hv => (h.out hp).1 v ((hcaller v).mp hv), (h.out hp).2⟩
  · rw [hphase] at hp
    obtain ⟨c, hc, hat⟩ := h.pausing hp
    exact ⟨c, by rw [hhome, hc], (hcaller c).mpr hat⟩
  · rw [hphase] at hp
    obtain ⟨c, hc, hat⟩ := h.stopping hp
    refine ⟨c, by rw [hhome, hc], fun f op hcop => ?_⟩
    rw [hwork] at hcop
    rcases eq_or_ne c w with rfl | hne
    · rw [Function.update_self] at hcop
      obtain ⟨op', hold⟩ := hpause hp f op hcop
      exact hat f op' hold
    · rw [Function.update_of_ne hne] at hcop
      exact hat f op hcop

omit [DecidableEq W] in
/-- The caller goes on. -/
theorem Called.phase (h : Called s)
    (hrest : s'.work = s.work ∧ s'.suspended = s.suspended ∧ s'.home = s.home) (hout : s'.phase ≠ .out)
    (hpausing : s'.phase.pausing = true → s.phase.pausing = true)
    (hstopping : s'.phase.stopping = true → s.phase.pausing = true ∨ s.phase.stopping = true) :
    Called s' := by
  obtain ⟨hwork, hsuspended, hhome⟩ := hrest
  refine ⟨by rw [hwork]; exact h.unique, by rw [hwork, hsuspended]; exact h.suspended,
    fun hp => absurd hp hout, fun hp => ?_, fun hp => ?_⟩
  · rw [hwork, hhome]
    exact h.pausing (hpausing hp)
  · rw [hwork, hhome]
    rcases hstopping hp with hp | hp
    · obtain ⟨c, hc, hat⟩ := h.pausing hp
      refine ⟨c, hc, fun f op hcop => ?_⟩
      rw [hat] at hcop
      cases hcop
    · exact h.stopping hp

/-! ### What a step does to the counts -/

section Balance
variable [Fintype W]

omit [DecidableEq W] in
theorem fibs_pos (hf : s.fib f = p) : 0 < s.fibs p := by
  have hle := le_tally (Fib.is p) s.fib f
  rw [hf, Fib.is, if_pos rfl] at hle
  exact hle

omit [DecidableEq W] in
theorem workers_pos {o : Op} (hw : s.work w = .pause f o) : 0 < s.workers o := by
  have hle := le_tally (Work.at o) s.work w
  rw [hw, Work.at, if_pos rfl] at hle
  exact hle

theorem Balanced.advanced (h : Balanced s) (hadv : Advanced s s') : Balanced s' := by
  obtain ⟨hphase, hhome, hcreated, hready, hstarting, htotal, hconfirmed, hpassed, -⟩ := hadv
  have hmissing : ∀ todo, s'.missing todo = s.missing todo := fun todo => by
    rw [State.missing, State.missing, hhome]
  cases hp : s.phase <;> simp only [Balanced, hphase, hp, hmissing, hcreated] at h ⊢ <;> omega

/-- The counts after worker `w` and pause fibre `f` have moved. -/
theorem shifts {r : State W} (hwork : r.work = Function.update s.work w k)
    (hfib : r.fib = Function.update s.fib f p) :
    r.workers .starting + (s.work w).at .starting = s.workers .starting + k.at .starting ∧
    r.workers .waiting + (s.work w).at .waiting = s.workers .waiting + k.at .waiting ∧
    r.workers .leaving + (s.work w).at .leaving = s.workers .leaving + k.at .leaving ∧
    r.fibs .ready + Fib.is .ready (s.fib f) = s.fibs .ready + Fib.is .ready p ∧
    r.fibs .running + Fib.is .running (s.fib f) = s.fibs .running + Fib.is .running p ∧
    r.fibs .done + Fib.is .done (s.fib f) = s.fibs .done + Fib.is .done p :=
  ⟨workers_shift hwork _, workers_shift hwork _, workers_shift hwork _, fibs_shift hfib _,
    fibs_shift hfib _, fibs_shift hfib _⟩

/-- A worker that runs no pause fibre, neither before nor after. -/
theorem Advanced.goto (hwork : s'.work = Function.update s.work w k) (hfib : s'.fib = s.fib)
    (hw : ∀ o, (s.work w).at o = 0) (hk : ∀ o, k.at o = 0)
    (hrest : s'.phase = s.phase ∧ s'.home = s.home ∧ s'.pauseFibres = s.pauseFibres ∧
      s'.pauseSem = s.pauseSem ∧ s'.pauseConfirmSem = s.pauseConfirmSem) : Advanced s s' := by
  obtain ⟨hphase, hhome, hcreated, hsem, hconfirm⟩ := hrest
  obtain ⟨hstarting, hwaiting, hleaving, hready, hrunning, hdone⟩ :=
    shifts (f := w) hwork (hfib.trans (Function.update_eq_self w s.fib).symm)
  rw [hw, hk] at hstarting hwaiting hleaving
  exact ⟨hphase, hhome, hcreated, by omega, by omega, by omega, by omega, by omega, by omega⟩

theorem Advanced.schedule (hw : s.work w = .other) (hf : s.fib f = .ready) :
    Advanced s ((s.goto w (.pause f .starting)).setFib f .running) := by
  obtain ⟨hstarting, hwaiting, hleaving, hready, hrunning, hdone⟩ :=
    shifts (s := s) (r := (s.goto w (.pause f .starting)).setFib f .running) rfl rfl
  rw [hw] at hstarting hwaiting hleaving
  rw [hf] at hready hrunning hdone
  simp only [Work.at, Fib.is, reduceCtorEq, if_true, if_false]
    at hstarting hwaiting hleaving hready hrunning hdone
  exact ⟨rfl, rfl, rfl, by omega, by omega, by omega, by simp only [State.goto, State.setFib] at *; omega,
    by simp only [State.goto, State.setFib] at *; omega, by omega⟩

theorem Advanced.confirmV (hw : s.work w = .pause f .starting) :
    Advanced s (State.goto { s with pauseConfirmSem := s.pauseConfirmSem + 1 } w
      (.pause f .waiting)) := by
  obtain ⟨hstarting, hwaiting, hleaving, hready, hrunning, hdone⟩ :=
    shifts (s := s) (f := f) (p := s.fib f) (r := State.goto
      { s with pauseConfirmSem := s.pauseConfirmSem + 1 } w (.pause f .waiting)) rfl
      (Function.update_eq_self ..).symm
  rw [hw] at hstarting hwaiting hleaving
  simp only [Work.at, reduceCtorEq, if_true, if_false] at hstarting hwaiting hleaving
  exact ⟨rfl, rfl, rfl, by omega, by omega, by omega, by simp only [State.goto] at *; omega,
    by simp only [State.goto] at *; omega, by omega⟩

theorem Advanced.pauseP (hw : s.work w = .pause f .waiting) (hsem : 0 < s.pauseSem) :
    Advanced s (State.goto { s with pauseSem := s.pauseSem - 1 } w (.pause f .leaving)) := by
  obtain ⟨hstarting, hwaiting, hleaving, hready, hrunning, hdone⟩ :=
    shifts (s := s) (f := f) (p := s.fib f) (r := State.goto
      { s with pauseSem := s.pauseSem - 1 } w (.pause f .leaving)) rfl
      (Function.update_eq_self ..).symm
  rw [hw] at hstarting hwaiting hleaving
  simp only [Work.at, reduceCtorEq, if_true, if_false] at hstarting hwaiting hleaving
  exact ⟨rfl, rfl, rfl, by omega, by omega, by omega, by simp only [State.goto] at *; omega,
    by simp only [State.goto] at *; omega, by omega⟩

theorem Advanced.finish (hw : s.work w = .pause f .leaving) (hf : s.fib f = .running) :
    Advanced s ((s.goto w .other).setFib f .done) := by
  obtain ⟨hstarting, hwaiting, hleaving, hready, hrunning, hdone⟩ :=
    shifts (s := s) (r := (s.goto w .other).setFib f .done) rfl rfl
  rw [hw] at hstarting hwaiting hleaving
  rw [hf] at hready hrunning hdone
  simp only [Work.at, Fib.is, reduceCtorEq, if_true, if_false]
    at hstarting hwaiting hleaving hready hrunning hdone
  exact ⟨rfl, rfl, rfl, by omega, by omega, by omega, by simp only [State.goto, State.setFib] at *; omega,
    by simp only [State.goto, State.setFib] at *; omega, by omega⟩

/-! ### The caller's steps -/

/-- INVARIANT of every reachable state. -/
structure Inv (s : State W) : Prop where
  ring : Ring s
  placed : Placed s
  called : Called s
  balanced : Balanced s
  active : s.fibs .running = s.workers .starting + s.workers .waiting + s.workers .leaving

/-- A step of a worker that runs neither the caller nor another pause fibre than before. -/
theorem Inv.goto (h : Inv s) (hring : Ring s') (hwork : s'.work = Function.update s.work w k)
    (hfib : s'.fib = s.fib) (hw : s.work w = .other ∨ s.work w = .acquiring)
    (hk : k = .other ∨ k = .acquiring)
    (hrest : s'.phase = s.phase ∧ s'.home = s.home ∧ s'.pauseFibres = s.pauseFibres ∧
      s'.pauseSem = s.pauseSem ∧ s'.pauseConfirmSem = s.pauseConfirmSem)
    (hsuspended : s'.suspended = s.suspended) : Inv s' := by
  have hkp : ∀ f op, k ≠ .pause f op := by rcases hk with rfl | rfl <;> simp
  have hadv : Advanced s s' := by
    refine .goto hwork hfib (fun o => ?_) (fun o => ?_) hrest
    · rcases hw with hw | hw <;> rw [hw] <;> rfl
    · rcases hk with rfl | rfl <;> rfl
  obtain ⟨hphase, hhome, hcreated, hsem, hconfirm⟩ := hrest
  refine ⟨hring, ?_, ?_, h.balanced.advanced hadv, ?_⟩
  · refine h.placed.goto hwork hfib (fun f op hf => absurd hf (hkp f op)) fun todo hp => ?_
    rw [hphase] at hp
    exact h.placed.todo todo hp
  · refine h.called.goto hwork ?_ ?_ ⟨hsuspended, hphase, hhome, hcreated⟩
      fun _ f op hf => absurd hf (hkp f op)
    · rcases hw with hw | hw <;> rw [hw] <;> simp
    · rcases hk with rfl | rfl <;> simp
  · have := hadv.active
    have := h.active
    omega

/-- A pause fibre advances at a worker. -/
theorem Inv.advance (h : Inv s) (hadv : Advanced s s') (hplaced : Placed s') (hcalled : Called s')
    (hring : s'.ring = s.ring) : Inv s' := by
  refine ⟨⟨hring ▸ h.ring.nodup, hring ▸ h.ring.complete⟩, hplaced, hcalled,
    h.balanced.advanced hadv, ?_⟩
  have := hadv.active
  have := h.active
  omega

/-- Nothing happens to the pause fibres. -/
theorem Inv.phase (h : Inv s) (hsame : s'.work = s.work ∧ s'.fib = s.fib ∧ s'.ring = s.ring)
    (htodo : ∀ todo, s'.phase = .creating todo → todo.Nodup ∧ ∀ f ∈ todo, s.fib f = .absent)
    (hcalled : Called s') (hbalanced : Balanced s') : Inv s' := by
  obtain ⟨hwork, hfib, hring⟩ := hsame
  refine ⟨⟨hring ▸ h.ring.nodup, hring ▸ h.ring.complete⟩, ⟨?_, ?_, ?_⟩, hcalled, hbalanced, ?_⟩
  · rw [hwork, hfib]; exact h.placed.running
  · rw [hwork]; exact h.placed.unique
  · rw [hfib]; exact htodo
  · have hactive := h.active
    simp only [State.fibs, State.workers] at hactive ⊢
    rw [hwork, hfib, hactive]

theorem Inv.acquire (h : Inv s) (hw : s.work w = .acquiring) (hp : s.phase = .out) :
    Inv (State.goto { s with phase := .creating s.ring, home := some w } w .caller) := by
  obtain ⟨hnone, hsuspended, -, hfibres⟩ := h.called.out hp
  have hbalanced := h.balanced
  rw [Balanced, hp] at hbalanced
  obtain ⟨hconfirm, hsem, hready, hstarting, hwaiting, hleaving, hdone⟩ := hbalanced
  have hrun : s.fibs .running = 0 := by have := h.active; omega
  have habsent : ∀ f, s.fib f = .absent := by
    intro f
    cases hf : s.fib f with
    | absent => rfl
    | ready => have := fibs_pos hf; omega
    | running => have := fibs_pos hf; omega
    | done => have := fibs_pos hf; omega
  generalize ht : State.goto { s with phase := .creating s.ring, home := some w } w .caller = t
  have hwork : t.work = Function.update s.work w .caller := by rw [← ht]; rfl
  have hmissing := h.ring.missing (r := t) (w := w) (by rw [← ht]; rfl)
  obtain ⟨hstarting', hwaiting', hleaving', hready', hrunning', hdone'⟩ := shifts (f := w)
    (p := s.fib w) hwork (by rw [← ht]; exact (Function.update_eq_self ..).symm)
  rw [hw] at hstarting' hwaiting' hleaving'
  simp only [Work.at] at hstarting' hwaiting' hleaving'
  have hphase : t.phase = .creating s.ring := by rw [← ht]; rfl
  refine ⟨by rw [← ht]; exact ⟨h.ring.nodup, h.ring.complete⟩, ?_, ?_, ?_, by omega⟩
  · refine h.placed.goto hwork (by rw [← ht]; rfl) (fun f op hf => by cases hf) fun todo hp' => ?_
    rw [hphase, Phase.creating.injEq] at hp'
    exact ⟨hp' ▸ h.ring.nodup, fun f _ => habsent f⟩
  · have hat : ∀ v, t.work v = .caller → v = w := by
      intro v hv
      by_contra hne
      rw [hwork, Function.update_of_ne hne] at hv
      exact hnone v hv
    refine ⟨fun v u hv hu => (hat v hv).trans (hat u hu).symm, fun hs => ?_, fun hp' => ?_,
      fun _ => ⟨w, by rw [← ht]; rfl, by rw [hwork, Function.update_self]⟩, fun hp' => ?_⟩
    · rw [← ht] at hs
      exact absurd hs (by simp [State.goto, hsuspended])
    · rw [hphase] at hp'
      cases hp'
    · rw [hphase] at hp'
      cases hp'
  · rw [Balanced, hphase]
    have hconfirm' : t.pauseConfirmSem = s.pauseConfirmSem := by rw [← ht]; rfl
    have hsem' : t.pauseSem = s.pauseSem := by rw [← ht]; rfl
    have hlength : t.pauseFibres.length = 0 := by
      rw [List.length_eq_zero_iff, ← hfibres, ← ht]
      rfl
    exact ⟨by omega, by omega, by omega, by omega, by omega, by omega⟩

/-- The caller is where `pause` was called. -/
theorem Inv.atHome (h : Inv s) (hw : s.work w = .caller) (hp : s.phase.pausing = true) :
    s.home = some w := by
  obtain ⟨c, hc, hat⟩ := h.called.pausing hp
  rw [hc, h.called.unique c w hat hw]

theorem Inv.create (h : Inv s) {todo : List W} (hw : s.work w = .caller)
    (hp : s.phase = .creating todo) : Inv (create s w todo) := by
  have hpausing : s.phase.pausing = true := by rw [hp]; rfl
  have hhome := h.atHome hw hpausing
  have hbalanced := h.balanced
  rw [Balanced, hp] at hbalanced
  obtain ⟨hconfirm, hsem, hleaving, hdone, hcreated, hcount⟩ := hbalanced
  obtain ⟨hnodup, habsent⟩ := h.placed.todo todo hp
  cases todo with
  | nil =>
    refine h.phase ⟨rfl, rfl, rfl⟩ (fun todo hp' => by cases hp')
      (h.called.phase ⟨rfl, rfl, rfl⟩ (by simp [StopTheWorld.create]) (fun _ => hpausing)
        fun _ => .inl hpausing) ?_
    exact ⟨le_rfl, congrArg (· + 1) hconfirm, hsem, hleaving, hdone, hcreated, hcount⟩
  | cons proc todo =>
    obtain ⟨hproc, hnodup⟩ := List.nodup_cons.mp hnodup
    rw [StopTheWorld.create]
    split_ifs with heq
    · refine h.phase ⟨rfl, rfl, rfl⟩ (fun todo' hp' => ?_)
        (h.called.phase ⟨rfl, rfl, rfl⟩ (by simp) (fun _ => hpausing) fun _ => .inl hpausing) ?_
      · obtain rfl := Phase.creating.inj hp'
        exact ⟨hnodup, fun f hf => habsent f (List.mem_cons_of_mem proc hf)⟩
      · have hmissing : s.missing (proc :: todo) = s.missing todo := by
          rw [State.missing, State.missing, List.filter_cons_of_neg (by simp [hhome, heq])]
        rw [hmissing] at hcount
        exact ⟨hconfirm, hsem, hleaving, hdone, hcreated, hcount⟩
    · have hfib := habsent proc (List.mem_cons_self ..)
      generalize ht : State.setFib { s with
        pauseFibres := s.pauseFibres ++ [proc], phase := .creating todo } proc .ready = t
      have hwork : t.work = s.work := by rw [← ht]; rfl
      have hphase : t.phase = .creating todo := by rw [← ht]; rfl
      have hset : t.fib = Function.update s.fib proc .ready := by rw [← ht]; rfl
      obtain ⟨hstarting', hwaiting', hleaving', hready', hrunning', hdone'⟩ := shifts (w := w)
        (hwork.trans (Function.update_eq_self w s.work).symm) hset
      rw [hfib] at hready' hrunning' hdone'
      simp only [Fib.is, reduceCtorEq, if_true, if_false] at hready' hrunning' hdone'
      refine ⟨by rw [← ht]; exact ⟨h.ring.nodup, h.ring.complete⟩, ?_, ?_, ?_, ?_⟩
      · refine h.placed.setFib (f := proc) (by rw [hfib]; simp) hwork hset fun todo' hp' => ?_
        rw [hphase, Phase.creating.injEq] at hp'
        subst hp'
        refine ⟨hnodup, fun f hf => ?_⟩
        rw [hset, Function.update_of_ne (by rintro rfl; exact hproc hf)]
        exact habsent f (List.mem_cons_of_mem proc hf)
      · refine h.called.phase (by rw [← ht]; exact ⟨rfl, rfl, rfl⟩) (by simp [hphase])
          (fun _ => hpausing) fun _ => .inl hpausing
      · have hmissing : s.missing (proc :: todo) = t.missing todo + 1 := by
          rw [State.missing, State.missing,
            List.filter_cons_of_pos (by simpa [hhome] using heq), ← ht]
          rfl
        rw [Balanced, hphase]
        have hconfirm' : t.pauseConfirmSem = s.pauseConfirmSem := by rw [← ht]; rfl
        have hsem' : t.pauseSem = s.pauseSem := by rw [← ht]; rfl
        have hlength : t.pauseFibres.length = s.pauseFibres.length + 1 := by
          rw [← ht]
          exact List.length_append
        exact ⟨by omega, by omega, by omega, by omega, by omega, by omega⟩
      · have := h.active
        omega

theorem Inv.confirmP (h : Inv s) {p : ℕ} (hp : s.phase = .confirming p)
    (hsem : 0 < s.pauseConfirmSem) :
    Inv { s with pauseConfirmSem := s.pauseConfirmSem - 1, phase := .confirming (p + 1) } := by
  have hpausing : s.phase.pausing = true := by rw [hp]; rfl
  have hbalanced := h.balanced
  rw [Balanced, hp] at hbalanced
  obtain ⟨hone, hconfirm, hrest⟩ := hbalanced
  refine h.phase ⟨rfl, rfl, rfl⟩ (fun todo hp' => by cases hp')
    (h.called.phase ⟨rfl, rfl, rfl⟩ (by simp) (fun _ => hpausing) fun _ => .inl hpausing) ?_
  refine ⟨by omega, ?_, hrest⟩
  show s.pauseConfirmSem - 1 + (p + 1) = s.workers .waiting + 1
  omega

/-- `pause` returns. -/
theorem Inv.paused (h : Inv s) {p : ℕ} (hp : s.phase = .confirming p)
    (hmore : ¬ p < s.ring.length) : Inv { s with phase := .paused } := by
  have hpausing : s.phase.pausing = true := by rw [hp]; rfl
  have hbalanced := h.balanced
  rw [Balanced, hp] at hbalanced
  obtain ⟨hone, hconfirm, hsem, hleaving, hdone, hcreated, hcount⟩ := hbalanced
  rw [h.ring.card] at hmore
  refine h.phase ⟨rfl, rfl, rfl⟩ (fun todo hp' => by cases hp')
    (h.called.phase ⟨rfl, rfl, rfl⟩ (by simp) (fun hp' => by cases hp') fun _ => .inl hpausing) ?_
  have hready : s.fibs .ready = 0 := by omega
  have hstarting : s.workers .starting = 0 := by omega
  have hnone : s.pauseConfirmSem = 0 := by omega
  have hwaiting : s.workers .waiting = s.pauseFibres.length := by omega
  exact ⟨hnone, hsem, hready, hstarting, hleaving, hdone, hwaiting, hcount⟩

theorem Inv.resume (h : Inv s) (hp : s.phase = .paused) : Inv { s with phase := .resuming 1 } := by
  have hstopping : s.phase.stopping = true := by rw [hp]; rfl
  have hbalanced := h.balanced
  rw [Balanced, hp] at hbalanced
  obtain ⟨hconfirm, hsem, hready, hstarting, hleaving, hdone, hcreated, hcount⟩ := hbalanced
  refine h.phase ⟨rfl, rfl, rfl⟩ (fun todo hp' => by cases hp')
    (h.called.phase ⟨rfl, rfl, rfl⟩ (by simp) (fun hp' => by cases hp') fun _ => .inr hstopping) ?_
  have hpassed : s.pauseSem + s.workers .leaving + s.fibs .done + 1 = 1 := by omega
  have hall : s.workers .waiting + s.workers .leaving + s.fibs .done = s.pauseFibres.length := by omega
  exact ⟨by omega, hconfirm, hready, hstarting, hpassed, hall, hcount⟩

theorem Inv.resumeV (h : Inv s) {p : ℕ} (hp : s.phase = .resuming p) (hmore : p < s.ring.length) :
    Inv { s with pauseSem := s.pauseSem + 1, phase := .resuming (p + 1) } := by
  have hstopping : s.phase.stopping = true := by rw [hp]; rfl
  have hbalanced := h.balanced
  rw [Balanced, hp] at hbalanced
  obtain ⟨hle, hconfirm, hready, hstarting, hpassed, hcount⟩ := hbalanced
  rw [h.ring.card] at hmore
  refine h.phase ⟨rfl, rfl, rfl⟩ (fun todo hp' => by cases hp')
    (h.called.phase ⟨rfl, rfl, rfl⟩ (by simp) (fun hp' => by cases hp') fun _ => .inr hstopping) ?_
  have hnext : s.pauseSem + 1 + s.workers .leaving + s.fibs .done + 1 = p + 1 := by omega
  exact ⟨hmore, hconfirm, hready, hstarting, hnext, hcount⟩

/-- The last `V` of `resume` is past. -/
theorem Inv.resumed (h : Inv s) {p : ℕ} (hp : s.phase = .resuming p) (hmore : ¬ p < s.ring.length) :
    Inv { s with phase := .deleting s.pauseFibres } := by
  have hbalanced := h.balanced
  rw [Balanced, hp] at hbalanced
  obtain ⟨hle, hconfirm, hready, hstarting, hpassed, hall, hcount⟩ := hbalanced
  rw [h.ring.card] at hmore
  refine h.phase ⟨rfl, rfl, rfl⟩ (fun todo hp' => by cases hp')
    (h.called.phase ⟨rfl, rfl, rfl⟩ (by simp) (fun hp' => by cases hp') fun hp' => by cases hp') ?_
  have hsem : s.pauseSem = s.workers .waiting := by omega
  exact ⟨hconfirm, hready, hstarting, hsem, hall⟩

theorem Inv.delete (h : Inv s) {todo : List W} (hp : s.phase = .deleting (f :: todo))
    (hf : s.fib f = .done) : Inv (State.setFib { s with phase := .deleting todo } f .absent) := by
  have hbalanced := h.balanced
  rw [Balanced, hp] at hbalanced
  obtain ⟨hconfirm, hready, hstarting, hsem, hall⟩ := hbalanced
  generalize ht : State.setFib { s with phase := .deleting todo } f .absent = t
  have hwork : t.work = s.work := by rw [← ht]; rfl
  have hphase : t.phase = .deleting todo := by rw [← ht]; rfl
  have hset : t.fib = Function.update s.fib f .absent := by rw [← ht]; rfl
  obtain ⟨hstarting', hwaiting', hleaving', hready', hrunning', hdone'⟩ := shifts (w := f)
    (hwork.trans (Function.update_eq_self f s.work).symm) hset
  rw [hf] at hready' hrunning' hdone'
  simp only [Fib.is, reduceCtorEq, if_true, if_false] at hready' hrunning' hdone'
  refine ⟨by rw [← ht]; exact ⟨h.ring.nodup, h.ring.complete⟩, ?_, ?_, ?_, ?_⟩
  · refine h.placed.setFib (by rw [hf]; simp) hwork hset fun todo' hp' => ?_
    rw [hphase] at hp'
    cases hp'
  · exact h.called.phase (by rw [← ht]; exact ⟨rfl, rfl, rfl⟩) (by simp [hphase])
      (fun hp' => by rw [hphase] at hp'; cases hp') fun hp' => by rw [hphase] at hp'; cases hp'
  · rw [Balanced, hphase]
    have hconfirm' : t.pauseConfirmSem = s.pauseConfirmSem := by rw [← ht]; rfl
    have hsem' : t.pauseSem = s.pauseSem := by rw [← ht]; rfl
    rw [List.length_cons] at hall
    exact ⟨by omega, by omega, by omega, by omega, by omega⟩
  · have := h.active
    omega

/-- The caller leaves its worker. -/
theorem Inv.leave (h : Inv s) (hw : s.work w = .caller) (hwork : s'.work = Function.update s.work w .other)
    (hsame : s'.fib = s.fib ∧ s'.ring = s.ring) (hpausing : s'.phase.pausing = false)
    (hout : s'.phase = .out → s'.suspended = false ∧ s'.home = none ∧ s'.pauseFibres = [])
    (hstopping : s'.phase.stopping = true → s.phase = s'.phase ∧ s'.home = s.home)
    (hbalanced : (∀ q, s'.fibs q = s.fibs q) → (∀ o, s'.workers o = s.workers o) → Balanced s') :
    Inv s' := by
  obtain ⟨hfib, hring⟩ := hsame
  have hfibs : ∀ q, s'.fibs q = s.fibs q := fun q => by rw [State.fibs, State.fibs, hfib]
  have hworkers : ∀ o, s'.workers o = s.workers o := by
    intro o
    have hshift := workers_shift hwork o
    rw [hw] at hshift
    exact hshift
  have hnone : ∀ v, s'.work v ≠ .caller := by
    intro v hv
    rw [hwork] at hv
    obtain ⟨hne, hv⟩ := Threads.stayed hv nofun
    exact hne (h.called.unique v w hv hw)
  refine ⟨⟨hring ▸ h.ring.nodup, hring ▸ h.ring.complete⟩, ?_, ?_, hbalanced hfibs hworkers, ?_⟩
  · refine h.placed.goto hwork hfib (fun f op hf => by cases hf) fun todo hp' => ?_
    rw [hp'] at hpausing
    cases hpausing
  · refine ⟨fun v u hv => absurd hv (hnone v), fun _ => hnone, fun hp' => ⟨hnone, hout hp'⟩,
      fun hp' => (by rw [hpausing] at hp'; cases hp'), fun hp' => ?_⟩
    obtain ⟨hsame, hhome⟩ := hstopping hp'
    obtain ⟨c, hc, hat⟩ := h.called.stopping (by rw [hsame]; exact hp')
    refine ⟨c, by rw [hhome, hc], fun f op hcop => ?_⟩
    rw [hwork] at hcop
    exact hat f op (Threads.stayed hcop nofun).2
  · rw [hfibs, hworkers, hworkers, hworkers]
    exact h.active

theorem Inv.finished (h : Inv s) (hw : s.work w = .caller) (hp : s.phase = .deleting []) :
    Inv (State.goto { s with pauseFibres := [], phase := .out, home := none } w .other) := by
  have hbalanced := h.balanced
  rw [Balanced, hp] at hbalanced
  obtain ⟨hconfirm, hready, hstarting, hsem, hall⟩ := hbalanced
  rw [List.length_nil] at hall
  have hsuspended : s.suspended = false := by
    by_contra hs
    exact h.called.suspended (by simpa using hs) w hw
  refine h.leave hw rfl ⟨rfl, rfl⟩ rfl (fun _ => ⟨hsuspended, rfl, rfl⟩) (fun hp' => by cases hp')
    fun hfibs hworkers => ?_
  simp only [Balanced, State.goto]
  simp only [State.goto] at hfibs hworkers
  simp only [hfibs, hworkers]
  omega

theorem Inv.suspend (h : Inv s) (hw : s.work w = .caller)
    (hp : s.phase = .paused ∨ ∃ todo, s.phase = .deleting todo) :
    Inv (State.goto { s with suspended := true } w .other) := by
  have hbalanced := h.balanced
  refine h.leave hw rfl ⟨rfl, rfl⟩ ?_ (fun hp' => ?_) (fun _ => ⟨rfl, rfl⟩) fun hfibs hworkers => ?_
  · rcases hp with hp | ⟨todo, hp⟩ <;> simp only [State.goto, hp] <;> rfl
  · rcases hp with hp | ⟨todo, hp⟩ <;> simp only [State.goto, hp] at hp' <;> cases hp'
  · rcases hp with hp | ⟨todo, hp⟩
    · rw [Balanced, hp] at hbalanced
      rw [Balanced, show (State.goto { s with suspended := true } w .other).phase = .paused from hp]
      simp only [hfibs, hworkers]
      exact hbalanced
    · rw [Balanced, hp] at hbalanced
      rw [Balanced,
        show (State.goto { s with suspended := true } w .other).phase = .deleting todo from hp]
      simp only [hfibs, hworkers]
      exact hbalanced

/-- The caller goes on, maybe at another worker. -/
theorem Inv.continue (h : Inv s) (hw : s.work w = .other) (hs : s.suspended = true) :
    Inv (State.goto { s with suspended := false } w .caller) := by
  have hnone := h.called.suspended hs
  have hadv : Advanced s (State.goto { s with suspended := false } w .caller) :=
    .goto (w := w) (k := .caller) rfl rfl (fun o => by rw [hw]; rfl) (fun _ => rfl)
      ⟨rfl, rfl, rfl, rfl, rfl⟩
  refine h.advance hadv ?_ ⟨?_, fun hs' => (by cases hs'), fun hp => ?_, fun hp => ?_, fun hp => ?_⟩ rfl
  · exact h.placed.goto (k := .caller) rfl rfl (fun f op hf => by cases hf) h.placed.todo
  · have hat : ∀ v, Function.update s.work w .caller v = .caller → v = w := by
      intro v hv
      by_contra hne
      rw [Function.update_of_ne hne] at hv
      exact hnone v hv
    exact fun v u hv hu => (hat v hv).trans (hat u hu).symm
  · have := (h.called.out hp).2.1
    rw [hs] at this
    cases this
  · obtain ⟨c, -, hc⟩ := h.called.pausing hp
    exact absurd hc (hnone c)
  · obtain ⟨c, hc, hat⟩ := h.called.stopping hp
    exact ⟨c, hc, fun f op hcop => hat f op (Threads.stayed hcop nofun).2⟩

/-! ### Every step -/

/-- STEP. -/
theorem Inv.step {a : Action W} (h : Inv s) (hs : StopTheWorld.step s a = some s') : Inv s' := by
  cases a with
  | call w =>
    obtain ⟨hw, hs⟩ := Option.ite_none_right_eq_some.mp hs
    obtain rfl := Option.some.inj hs
    exact h.goto ⟨h.ring.nodup, h.ring.complete⟩ rfl rfl (.inl hw) (.inr rfl) ⟨rfl, rfl, rfl, rfl, rfl⟩ rfl
  | place w =>
    obtain ⟨⟨hw, hp⟩, hs⟩ := Option.ite_none_right_eq_some.mp hs
    obtain rfl := Option.some.inj hs
    refine h.goto ⟨?_, fun v => ?_⟩ rfl rfl (.inr hw) (.inl rfl) ⟨rfl, rfl, rfl, rfl, rfl⟩ rfl
    · exact List.nodup_rotate.mpr h.ring.nodup
    · exact List.mem_rotate.mpr (h.ring.complete v)
  | acquire w =>
    obtain ⟨⟨hw, hp⟩, hs⟩ := Option.ite_none_right_eq_some.mp hs
    obtain rfl := Option.some.inj hs
    exact h.acquire hw hp
  | create w =>
    rw [StopTheWorld.step] at hs
    split at hs
    · obtain rfl := Option.some.inj hs
      exact h.create ‹_› ‹_›
    · cases hs
  | confirmP w =>
    rw [StopTheWorld.step] at hs
    split at hs
    · split_ifs at hs with hmore hsem
      · obtain rfl := Option.some.inj hs
        exact h.confirmP ‹_› hsem
      · obtain rfl := Option.some.inj hs
        exact h.paused ‹_› hmore
    · cases hs
  | resume w =>
    obtain ⟨⟨-, hp⟩, hs⟩ := Option.ite_none_right_eq_some.mp hs
    obtain rfl := Option.some.inj hs
    exact h.resume hp
  | resumeV w =>
    rw [StopTheWorld.step] at hs
    split at hs
    · split_ifs at hs with hmore
      · obtain rfl := Option.some.inj hs
        exact h.resumeV ‹_› hmore
      · obtain rfl := Option.some.inj hs
        exact h.resumed ‹_› hmore
    · cases hs
  | delete w =>
    rw [StopTheWorld.step] at hs
    split at hs
    · obtain rfl := Option.some.inj hs
      exact h.finished ‹_› ‹_›
    · obtain ⟨hf, hs⟩ := Option.ite_none_right_eq_some.mp hs
      obtain rfl := Option.some.inj hs
      exact h.delete ‹_› hf
    · cases hs
  | suspend w =>
    rw [StopTheWorld.step] at hs
    split at hs
    · obtain rfl := Option.some.inj hs
      exact h.suspend ‹_› (.inl ‹_›)
    · obtain rfl := Option.some.inj hs
      exact h.suspend ‹_› (.inr ⟨_, ‹_›⟩)
    · cases hs
  | «continue» w =>
    obtain ⟨⟨hw, hsuspended⟩, hs⟩ := Option.ite_none_right_eq_some.mp hs
    obtain rfl := Option.some.inj hs
    exact h.continue hw hsuspended
  | schedule w f =>
    obtain ⟨⟨hw, hf⟩, hs⟩ := Option.ite_none_right_eq_some.mp hs
    obtain rfl := Option.some.inj hs
    have hready := fibs_pos hf
    refine h.advance (.schedule hw hf) (h.placed.schedule hw hf) ?_ rfl
    refine h.called.goto (k := .pause f .starting) rfl (by simp [hw]) (by simp) ⟨rfl, rfl, rfl, rfl⟩
      fun hp => ?_
    -- no pause fibre is ready while the world is stopped
    have hbalanced := h.balanced
    cases hphase : s.phase <;> rw [hphase] at hp <;> simp only [Phase.stopping, reduceCtorEq] at hp <;>
      rw [Balanced, hphase] at hbalanced <;> omega
  | confirmV w =>
    rw [StopTheWorld.step] at hs
    split at hs
    · rename_i f hw
      obtain rfl := Option.some.inj hs
      refine h.advance (.confirmV hw) ?_ ?_ rfl
      · exact h.placed.goto (k := .pause f .waiting) rfl rfl
          (fun g op hg => ⟨.starting, by obtain ⟨rfl, -⟩ := Work.pause.inj hg; exact hw⟩) h.placed.todo
      · exact h.called.goto (k := .pause f .waiting) rfl (by simp [hw]) (by simp) ⟨rfl, rfl, rfl, rfl⟩
          fun _ g op hg => ⟨.starting, by obtain ⟨rfl, -⟩ := Work.pause.inj hg; exact hw⟩
    · cases hs
  | pauseP w =>
    rw [StopTheWorld.step] at hs
    split at hs
    · rename_i f hw
      obtain ⟨hsem, hs⟩ := Option.ite_none_right_eq_some.mp hs
      obtain rfl := Option.some.inj hs
      refine h.advance (.pauseP hw hsem) ?_ ?_ rfl
      · exact h.placed.goto (k := .pause f .leaving) rfl rfl
          (fun g op hg => ⟨.waiting, by obtain ⟨rfl, -⟩ := Work.pause.inj hg; exact hw⟩) h.placed.todo
      · exact h.called.goto (k := .pause f .leaving) rfl (by simp [hw]) (by simp) ⟨rfl, rfl, rfl, rfl⟩
          fun _ g op hg => ⟨.waiting, by obtain ⟨rfl, -⟩ := Work.pause.inj hg; exact hw⟩
    · cases hs
  | finish w =>
    rw [StopTheWorld.step] at hs
    split at hs
    · rename_i f hw
      obtain rfl := Option.some.inj hs
      refine h.advance (.finish hw (h.placed.running w f _ hw)) (h.placed.finish hw) ?_ rfl
      exact h.called.goto (k := .other) rfl (by simp [hw]) (by simp) ⟨rfl, rfl, rfl, rfl⟩
        fun _ g op hg => by cases hg
    · cases hs

theorem Inv.init {ring : List W} (hnodup : ring.Nodup) (hcomplete : ∀ w, w ∈ ring) :
    Inv (State.init ring) := by
  have hworkers : ∀ o, (State.init ring).workers o = 0 := fun o => tally_eq_zero fun _ => rfl
  have hfibs : ∀ q, q ≠ .absent → (State.init ring).fibs q = 0 := fun q hq =>
    tally_eq_zero fun _ => if_neg hq.symm
  refine ⟨⟨hnodup, hcomplete⟩, ⟨fun w f op hw => (by cases hw), fun w v f op op' hw => (by cases hw),
    fun todo hp => (by cases hp)⟩, ⟨fun w v hw => (by cases hw), fun hs => (by cases hs), fun _ =>
    ⟨fun w hw => (by cases hw), rfl, rfl, rfl⟩, fun hp => (by cases hp), fun hp => (by cases hp)⟩,
    ⟨rfl, rfl, hfibs _ (by simp), hworkers _, hworkers _, hworkers _, hfibs _ (by simp)⟩, ?_⟩
  rw [hworkers, hworkers, hworkers, hfibs _ (by simp)]

theorem inv_reach (h : Reach (system W) s) : Inv s := by
  refine h.inv (fun s hs => ?_) fun s a s' hI hs => hI.step hs
  obtain ⟨ring, hnodup, hcomplete, rfl⟩ := hs
  exact .init hnodup hcomplete

/-- While the world is stopped every worker but the caller's blocks in a pause fibre. -/
theorem Inv.stopped (h : Inv s) (hp : s.phase = .paused ∨ s.phase = .resuming 1) :
    ∃ c, s.home = some c ∧ ∀ w, w ≠ c → ∃ f, s.work w = .pause f .waiting := by
  have hstopping : s.phase.stopping = true := by rcases hp with hp | hp <;> rw [hp] <;> rfl
  have hall : s.workers .waiting + 1 = Fintype.card W := by
    have hbalanced := h.balanced
    rcases hp with hp | hp <;> rw [Balanced, hp] at hbalanced <;> omega
  obtain ⟨c, hc, hat⟩ := h.called.stopping hstopping
  refine ⟨c, hc, fun w hw => ?_⟩
  have hle : ∀ k : Work W, k.at .waiting ≤ 1 := by
    intro k
    cases k with
    | pause f op => rw [Work.at]; split_ifs <;> omega
    | _ => exact Nat.zero_le _
  have hzero : (s.work c).at .waiting = 0 := by
    cases hk : s.work c with
    | pause f op => exact absurd hk (hat f op)
    | _ => rfl
  have hone := weight_of_tally hle hzero hall hw
  cases hk : s.work w with
  | pause f op =>
    rw [hk, Work.at] at hone
    split_ifs at hone with hop
    exact ⟨f, by rw [hop]⟩
  | _ => rw [hk] at hone; cases hone

/-- Outside of `pause` and `resume` nothing is left of them. -/
theorem Inv.clean (h : Inv s) (hp : s.phase = .out) :
    s = { State.init s.ring with work := s.work } ∧ ∀ w, s.work w = .other ∨ s.work w = .acquiring := by
  obtain ⟨hnone, hsuspended, hhome, hfibres⟩ := h.called.out hp
  have hbalanced := h.balanced
  rw [Balanced, hp] at hbalanced
  obtain ⟨hconfirm, hsem, hready, hstarting, hwaiting, hleaving, hdone⟩ := hbalanced
  have hrunning := h.active
  have habsent : s.fib = fun _ => .absent := by
    funext f
    cases hf : s.fib f with
    | absent => rfl
    | ready | running | done => have := fibs_pos hf; omega
  refine ⟨?_, fun w => ?_⟩
  · cases s
    simp only at hp hsuspended hhome hfibres hconfirm hsem habsent
    rw [hp, hsuspended, hhome, hfibres, hconfirm, hsem, habsent]
    rfl
  · cases hw : s.work w with
    | other => exact .inl rfl
    | acquiring => exact .inr rfl
    | caller => exact absurd hw (hnone w)
    | pause f op => cases op <;> have := workers_pos hw <;> omega

/-- The assertion after the loop of `pause` holds. -/
theorem created_all (h : Reach (system W) s) (hp : s.phase = .creating []) :
    s.pauseFibres.length + 1 = s.ring.length := by
  have hI := inv_reach h
  have hbalanced := hI.balanced
  rw [Balanced, hp] at hbalanced
  rw [hI.ring.card, ← hbalanced.2.2.2.2.2]
  rfl

/-- SAFETY: from the return of `pause` to the first `V` of `resume` every other worker is between its
    `V` and its `P`; and whenever no caller is in between, the cluster is as it was before any
    `pause`, up to the ring's start and what the workers do. -/
theorem stop_the_world (h : Reach (system W) s) :
    (s.phase = .paused ∨ s.phase = .resuming 1 →
      ∃ c, s.home = some c ∧ ∀ w, w ≠ c → ∃ f, s.work w = .pause f .waiting) ∧
    (s.phase = .out → s = { State.init s.ring with work := s.work } ∧
      (s.ring.Nodup ∧ ∀ w, w ∈ s.ring) ∧ ∀ w, s.work w = .other ∨ s.work w = .acquiring) := by
  have hI := inv_reach h
  refine ⟨hI.stopped, fun hp => ?_⟩
  obtain ⟨hclean, hwork⟩ := hI.clean hp
  exact ⟨hclean, ⟨hI.ring.nodup, hI.ring.complete⟩, hwork⟩

end Balance

end Steps

/-- Three workers. Worker 2 runs the fibre that was created for worker 1, and the caller ends `resume` at
    worker 1; the second `pause` is called there. -/
theorem stop_the_world_stolen : ∃ s : State (Fin 3), Reach (system (Fin 3)) s ∧
    (s.phase = .paused ∧ s.home = some 1 ∧ s.work 0 = .pause 2 .waiting) ∧
    ∃ c, s.home = some c ∧ ∀ w, w ≠ c → ∃ f, s.work w = .pause f .waiting := by
  obtain ⟨s, hs, htest⟩ := reach_of_exec (system (Fin 3)) (State.init [0, 1, 2])
    [.call 0, .acquire 0, .create 0, .create 0, .schedule 2 1, .create 0, .create 0, .schedule 1 2,
      .confirmV 2, .confirmV 1, .confirmP 0, .confirmP 0, .confirmP 0, .suspend 0, .continue 0,
      .resume 0, .resumeV 0, .pauseP 1, .resumeV 0, .finish 1, .resumeV 0, .suspend 0, .pauseP 2,
      .continue 1, .finish 2, .delete 1, .delete 1, .delete 1,
      .call 1, .acquire 1, .create 1, .create 1, .create 1, .create 1, .schedule 2 0, .schedule 0 2,
      .confirmV 2, .confirmV 0, .confirmP 1, .confirmP 1, .confirmP 1]
    (fun s => decide (s.phase = .paused ∧ s.home = some 1 ∧ s.work 0 = .pause 2 .waiting))
    ⟨[0, 1, 2], by decide, by decide, rfl⟩ (by decide)
  have htest := of_decide_eq_true htest
  exact ⟨s, hs, htest, (stop_the_world hs).1 (.inl htest.1)⟩

end Libfibre.StopTheWorld
