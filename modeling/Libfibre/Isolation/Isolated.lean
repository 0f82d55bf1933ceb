import Libfibre.Isolation.Steps

/-! Isolation of the clusters, in every state of every run: a ready queue holds the fibres of its
    processor, a fibre is dispatched within the scheduler of its processor and comes out of `migrate`
    where it wanted to, and no thief and no hand-over changes the processor of a fibre with an
    affinity. `resumeDirect` is the exception: it switches on the worker of the fibre that resumes. -/

set_option linter.unusedSectionVars false

namespace Libfibre.Isolation
open Transition
open Scheduler (Fibre Priority Life)
open Fred (Parked Running ResumedEarly)
open Placement

variable {W X G S : Type} [DecidableEq W] [DecidableEq X] [DecidableEq G] [DecidableEq S]
  {c : Config W S} {s s' : State W X G S}

/-! ### The invariant along a run -/

theorem Booted.places {f : Fibre W G} {p : Place W X S} (hb : Booted s) (hp : s.Has f p) :
    ∃ w, p = .runs w ∧ s.pc w = .exec f := by
  rcases hp with ⟨w, hw⟩ | ⟨t, ht⟩ | hst
  · refine ⟨w, ?_⟩
    rcases hb.exec w with hpc | ⟨g, hpc⟩ <;>
    · rw [State.AtPc, hpc] at hw
      obtain ⟨rfl, rfl⟩ := Prod.mk.inj (List.mem_singleton.mp hw)
      exact ⟨rfl, hpc⟩
  · rw [State.AtAdd, hb.adding t] at ht
    cases ht
  · cases p with
    | posted w =>
      have hpos : 0 < s.haltSem w := hst.1
      rw [hb.haltSem w] at hpos
      cases hpos
    | ready w r =>
      have hin : f ∈ s.readyQueue w r := hst
      rw [hb.readyQueue w r] at hin
      cases hin
    | waiting x =>
      have hin : f ∈ (s.idleManager x).waitingFreds := hst
      rw [hb.idleManager x] at hin
      cases hin
    | runs _ | leaves _ _ | next _ _ | taking _ | reading _ | adding _ _ | waking _ _
    | written _ _ => cases hst

theorem Booted.noProc (hb : Booted s) (w : W) (q : HaltPlace W X S) : ¬ s.HasProc w q := by
  intro hw
  cases q with
  | waiting x =>
    have hin : w ∈ (s.idleManager x).waitingProcs := hw
    rw [hb.idleManager x] at hin
    cases hin
  | waking t =>
    have hin : (s.adding t).proc = some w := hw
    rw [hb.adding t] at hin
    cases hin
  | posted =>
    have hpos : 0 < s.haltSem w := hw
    rw [hb.haltSem w] at hpos
    cases hpos

theorem Booted.inv (hb : Booted s) : Inv c s where
  freds := by
    refine ⟨fun f p q hp hq => ?_, fun f p hp => ?_⟩
    · obtain ⟨w, rfl, hw⟩ := hb.places hp
      obtain ⟨v, rfl, hv⟩ := hb.places hq
      rw [hb.once w v f hw hv]
    · obtain ⟨w, rfl, hw⟩ := hb.places hp
      obtain ⟨hrun, htarget⟩ := hb.fred f
      refine ⟨by rw [hrun]; decide, ?_, ?_, fun x hx => absurd (htarget.symm.trans hx) nofun⟩
      · cases f with
        | idle v => rw [(hb.idle v).1]; nofun
        | user g => rw [(hb.started w g hw).1]; nofun
      · rintro v rfl
        rcases hb.exec w with hpc | ⟨g, hpc⟩
        · rw [hw] at hpc
          cases hpc
          rfl
        · rw [hw] at hpc
          cases hpc
  procs := ⟨fun w q _ hq => absurd hq (hb.noProc w q), fun w q hq => absurd hq (hb.noProc w q)⟩
  readyNodup w p := by rw [hb.readyQueue]; exact List.nodup_nil
  fredsNodup x := by rw [hb.idleManager]; exact List.nodup_nil
  procsNodup x := by rw [hb.idleManager]; exact List.nodup_nil
  haltSem w := by rw [hb.haltSem]; exact Nat.zero_le 1
  halting w hw := by
    rw [hb.halting] at hw
    cases hw
  fred f := by
    obtain ⟨hrun, htarget⟩ := hb.fred f
    have hawake : (s.fred f).runState ≠ Parked := by
      rw [hrun]
      decide
    refine ⟨fun x hx => absurd (htarget.symm.trans hx) nofun, fun _ => ⟨hawake, htarget⟩, ?_⟩
    rintro w rfl
    obtain ⟨hlife, hproc, -⟩ := hb.idle w
    exact ⟨hproc, hawake, by rw [hlife]; nofun, htarget⟩
  pc w := by
    rcases hb.exec w with hpc | ⟨g, hpc⟩
    · rw [hpc]
      trivial
    · rw [hpc]
      trivial

/-- STEP: whatever a worker or another thread does. -/
theorem Inv.step {a : Action W X G} (hi : Inv c s) (hs : step c s a = some s') : Inv c s' := by
  cases a with
  | start t g proc affinity =>
    simp only [Isolation.step, Option.ite_none_right_eq_some, Option.some.injEq] at hs
    obtain ⟨⟨hfresh, hadd, -⟩, rfl⟩ := hs
    exact hi.start hfresh hadd
  | initFred w g =>
    simp only [Isolation.step, Option.ite_none_right_eq_some, Option.some.injEq] at hs
    obtain ⟨⟨hfresh, hat⟩, rfl⟩ := hs
    exact hi.initFred hfresh (State.at_eq.mp hat).2
  | idle w =>
    simp only [Isolation.step, Option.ite_none_right_eq_some, Option.some.injEq] at hs
    obtain ⟨hat, rfl⟩ := hs
    exact hi.leave (State.at_eq.mp hat).2 (leaves_nonblocking .idle nofun Goal.suits_idle)
      fun _ => ((hi.fred (.idle w)).idle w rfl).2.2.2
  | yield w =>
    obtain ⟨g, hfree, rfl⟩ := Option.map_eq_some_iff.mp hs
    obtain ⟨⟨hpc, -⟩, htarget⟩ := State.free_eq.mp hfree
    exact hi.leave hpc (.search .yield false rfl nofun (Goal.suits_user nofun)) fun _ => htarget
  | yieldGlobal w =>
    obtain ⟨g, hfree, rfl⟩ := Option.map_eq_some_iff.mp hs
    obtain ⟨⟨hpc, -⟩, htarget⟩ := State.free_eq.mp hfree
    exact hi.leave hpc (.search .yieldGlobal false rfl nofun (Goal.suits_user nofun))
      fun _ => htarget
  | migrate w proc =>
    obtain ⟨g, hfree, rfl⟩ := Option.map_eq_some_iff.mp hs
    exact hi.migrate (State.free_eq.mp hfree).1.1
  | migrated w =>
    obtain ⟨g, hcur, rfl⟩ := Option.map_eq_some_iff.mp hs
    exact hi.migrated (State.current_eq.mp hcur).1
  | suspend w =>
    obtain ⟨g, hfree, rfl⟩ := Option.map_eq_some_iff.mp hs
    obtain ⟨⟨hpc, -⟩, htarget⟩ := State.free_eq.mp hfree
    exact hi.suspend hpc htarget
  | terminate w =>
    obtain ⟨g, hfree, rfl⟩ := Option.map_eq_some_iff.mp hs
    obtain ⟨⟨hpc, -⟩, htarget⟩ := State.free_eq.mp hfree
    exact hi.leave hpc (leaves_nonblocking .terminate nofun (Goal.suits_user nofun))
      fun _ => htarget
  | resume t g =>
    simp only [Isolation.step, Option.ite_none_right_eq_some] at hs
    exact hi.resume hs.1.1 hs.2
  | resumeDirect w g =>
    obtain ⟨h, hfree, hs⟩ := Option.bind_eq_some_iff.mp hs
    obtain ⟨⟨hpc, -⟩, htarget⟩ := State.free_eq.mp hfree
    exact hi.resumeDirect hpc htarget hs
  | tryGetReadyFred w lost last =>
    simp only [Isolation.step] at hs
    split at hs
    case h_1 f goal hat =>
      rw [Option.some.injEq] at hs
      exact hs ▸ hi.tryGetReadyFred (State.at_eq.mp hat).2
    case h_2 => cases hs
  | searchLocal w p =>
    simp only [Isolation.step] at hs
    split at hs
    case h_1 f goal g rest hat hq =>
      rw [Option.some.injEq] at hs
      have hpc := (State.at_eq.mp hat).2
      have hfits := hi.pc w
      rw [hpc] at hfits
      exact hs ▸ hi.takeFrom hpc (.search goal false rfl hfits.1 hfits.2) hfits.1 hfits.2 .chosen hq
        rfl
    case h_2 => cases hs
  | searchSteal w victim p =>
    simp only [Isolation.step] at hs
    split at hs
    case h_1 f goal g rest hat hq =>
      simp only [Option.ite_none_right_eq_some, Option.some.injEq] at hs
      obtain ⟨⟨-, hsched⟩, rfl⟩ := hs
      have hpc := (State.at_eq.mp hat).2
      have hfits := hi.pc w
      rw [hpc] at hfits
      exact hi.takeFrom hpc (.search goal true rfl hfits.1 hfits.2) hfits.1 hfits.2
        (.taken hfits.1) hq hsched
    case h_2 => cases hs
  | searchFails w =>
    simp only [Isolation.step] at hs
    split at hs
    case h_1 f goal steal hat =>
      rw [Option.some.injEq] at hs
      exact hs ▸ hi.searchFails (State.at_eq.mp hat).2
    case h_2 => cases hs
  | checkAffinity w =>
    simp only [Isolation.step] at hs
    split at hs
    case h_1 f goal g hat =>
      rw [Option.some.injEq] at hs
      exact hs ▸ hi.affine (State.at_eq.mp hat).2
    case h_2 => cases hs
  | getReadyFred w =>
    simp only [Isolation.step, Option.ite_none_right_eq_some, Option.some.injEq] at hs
    obtain ⟨hat, rfl⟩ := hs
    exact hi.getReadyFred (State.at_eq.mp hat).2
  | block w =>
    simp only [Isolation.step, Option.ite_none_right_eq_some, Option.some.injEq] at hs
    obtain ⟨hat, rfl⟩ := hs
    exact hi.block (State.at_eq.mp hat).2
  | haltP w =>
    simp only [Isolation.step, Option.ite_none_right_eq_some, Option.some.injEq] at hs
    obtain ⟨⟨hat, hpos⟩, rfl⟩ := hs
    exact hi.wakeUp (State.at_eq.mp hat).2 hpos
  | handover w =>
    simp only [Isolation.step] at hs
    split at hs
    case h_1 g hat hslot =>
      rw [Option.some.injEq] at hs
      exact hs ▸ hi.handover (State.at_eq.mp hat).2 hslot
    case h_2 => cases hs
  | stackSwitch w =>
    simp only [Isolation.step] at hs
    split at hs
    case h_1 f goal g hat =>
      rw [Option.some.injEq] at hs
      have hpc := (State.at_eq.mp hat).2
      have hsuits := hi.pc w
      rw [hpc] at hsuits
      exact hs ▸ hi.keep hpc .chosen .post hsuits
    case h_2 => cases hs
  | post w =>
    simp only [Isolation.step] at hs
    split at hs
    case h_1 f goal g hat =>
      rw [Option.some.injEq] at hs
      obtain ⟨hadd, hpc⟩ := State.at_eq.mp hat
      exact hs ▸ hi.dispose hpc hadd
    case h_2 => cases hs
  | addNext t => exact hi.enqueue hs

/-- RUN: in every state reached. -/
theorem Inv.reach (h : Reach (system X G c) s) : Inv c s :=
  h.inv (I := Inv c) (fun _ hb => Booted.inv hb) fun _ _ _ hi hs => hi.step hs

theorem Inv.isolated (hi : Inv c s) : Isolated c s where
  ready w p f hf := (hi.freds.good f (.ready w p) (State.has_ready.mpr hf)).fits
  dispatched w goal f hf hd := by
    have hsched : ∀ h : Fibre W G, Holds w h goal f (s.pc w) →
        c.scheduler (s.fred f).processor = c.scheduler w := by
      intro h hh
      have hgood := hi.freds.good f _ (hh.has rfl).2
      have hfits := hgood.fits
      rw [decide_eq_false hd] at hfits
      exact hfits
    unfold Pc.dispatches at hf
    split at hf
    case h_1 h goal' g hpc =>
      obtain ⟨rfl, rfl⟩ := Prod.mk.inj (Option.some.inj hf)
      exact hsched h (hpc ▸ .chosen)
    case h_2 h goal' g hpc =>
      obtain ⟨rfl, rfl⟩ := Prod.mk.inj (Option.some.inj hf)
      exact hsched h (hpc ▸ .post)
    case h_3 => cases hf
  migrated w g x hpc htarget :=
    (hi.freds.good (.user g) (.runs w) (State.has_pc hpc (List.mem_singleton_self _))).fits x htarget

/-! ### Who changes a processor -/

/-- The fibre keeps its processor. -/
def Kept (f : Fibre W G) (s s' : State W X G S) : Prop :=
  (s'.fred f).processor = (s.fred f).processor

theorem Kept.setFred {f g : Fibre W G} {r : FredState W S}
    (h : g = f → r.processor = (s.fred f).processor) : Kept f s (s.setFred g r) := by
  show (Function.update s.fred g r f).processor = _
  rcases eq_or_ne f g with rfl | hne
  · rw [Function.update_self]
    exact h rfl
  · rw [Function.update_of_ne hne]

theorem Kept.post {f g h : Fibre W G} {w : W} (goal : Goal) :
    Kept f s (post s w g h goal) := by
  have hset : ∀ r : FredState W S, r.processor = (s.fred g).processor →
      Kept f s ((s.setPc w (.exec h)).setFred g r) :=
    fun r hr => Kept.setFred (s := s.setPc w (.exec h)) fun he => he ▸ hr
  cases goal with
  | idle | yield | yieldGlobal | migrate | resume | direct => rfl
  | suspend =>
    rw [Libfibre.Isolation.post]
    split
    · exact hset _ rfl
    · exact hset _ rfl
  | terminate => exact hset _ rfl

theorem Kept.addNext {f : Fibre W G} {t : W ⊕ X} (hs : addNext c s t = some s') : Kept f s s' := by
  unfold Libfibre.Isolation.addNext at hs
  split at hs
  case h_1 => cases hs
  case h_5 =>
    rw [Option.some.injEq] at hs
    subst hs
    rw [unblock]
    split
    · rfl
    · split <;> rfl
  all_goals
    rw [Option.some.injEq] at hs
    subst hs
    rfl

theorem Kept.resume {f : Fibre W G} {t : W ⊕ X} {g : G} (hs : resume s t g = some s') :
    Kept f s s' := by
  have hset : Kept f s (s.setFred (.user g) (resumed (s.fred (.user g)))) :=
    Kept.setFred fun he => he ▸ rfl
  rw [Libfibre.Isolation.resume] at hs
  split at hs
  · exact Option.some.inj hs ▸ hset
  · split at hs
    · exact Option.some.inj hs ▸ hset
    · cases hs

theorem Kept.resumeDirect {f : Fibre W G} {w : W} {h g : G} (hs : resumeDirect s w h g = some s') :
    Kept f s s' := by
  have hset : Kept f s (s.setFred (.user g) (resumed (s.fred (.user g)))) :=
    Kept.setFred fun he => he ▸ rfl
  rw [Libfibre.Isolation.resumeDirect] at hs
  split at hs
  · exact Option.some.inj hs ▸ hset
  · split at hs
    · exact Option.some.inj hs ▸ hset
    · cases hs

/-- STEP: of a fibre that has been started and has an affinity, only its own `migrate` changes the
    processor. -/
theorem kept_or_migrates {a : Action W X G} {f : Fibre W G} (hs : step c s a = some s')
    (hstarted : (s.fred f).life ≠ .fresh) (haffinity : (s.fred f).affinity = true) :
    Kept f s s' ∨ ∃ w proc, a = .migrate w proc ∧ s.pc w = .exec f := by
  cases a with
  | migrate w proc =>
    obtain ⟨g, hfree, rfl⟩ := Option.map_eq_some_iff.mp hs
    rcases eq_or_ne f (.user g) with rfl | hne
    · exact .inr ⟨w, proc, rfl, (State.free_eq.mp hfree).1.1⟩
    · exact .inl (Kept.setFred fun he => absurd he.symm hne)
  | start t g proc affinity =>
    simp only [step, Option.ite_none_right_eq_some, Option.some.injEq] at hs
    obtain ⟨⟨hfresh, -⟩, rfl⟩ := hs
    exact .inl (Kept.setFred fun he => absurd (he ▸ hfresh) hstarted)
  | initFred w g =>
    simp only [step, Option.ite_none_right_eq_some, Option.some.injEq] at hs
    obtain ⟨⟨hfresh, -⟩, rfl⟩ := hs
    exact .inl (Kept.setFred fun he => absurd (he ▸ hfresh) hstarted)
  | checkAffinity w =>
    simp only [step] at hs
    split at hs
    case h_1 h goal g hat =>
      rw [Option.some.injEq] at hs
      subst hs
      refine .inl (Kept.setFred fun he => ?_)
      rw [he, checkAffinity, if_pos haffinity]
    case h_2 => cases hs
  | migrated w =>
    obtain ⟨g, -, rfl⟩ := Option.map_eq_some_iff.mp hs
    exact .inl (Kept.setFred fun he => he ▸ rfl)
  | suspend w =>
    obtain ⟨g, -, rfl⟩ := Option.map_eq_some_iff.mp hs
    left
    rw [suspend]
    split
    · exact Kept.setFred fun he => he ▸ rfl
    · rfl
  | resume t g =>
    simp only [step, Option.ite_none_right_eq_some] at hs
    exact .inl (Kept.resume hs.2)
  | resumeDirect w g =>
    obtain ⟨h, -, hs⟩ := Option.bind_eq_some_iff.mp hs
    exact .inl (Kept.resumeDirect hs)
  | post w =>
    simp only [step] at hs
    split at hs
    case h_1 h goal g hat => exact .inl (Option.some.inj hs ▸ Kept.post goal)
    case h_2 => cases hs
  | addNext t => exact .inl (Kept.addNext hs)
  | yield w | yieldGlobal w | terminate w =>
    obtain ⟨g, -, rfl⟩ := Option.map_eq_some_iff.mp hs
    exact .inl rfl
  | idle w | getReadyFred w | haltP w =>
    simp only [step, Option.ite_none_right_eq_some, Option.some.injEq] at hs
    obtain ⟨-, rfl⟩ := hs
    exact .inl rfl
  | block w =>
    simp only [step, Option.ite_none_right_eq_some, Option.some.injEq] at hs
    obtain ⟨-, rfl⟩ := hs
    left
    rw [block]
    split <;> rfl
  | tryGetReadyFred w lost last =>
    simp only [step] at hs
    split at hs
    case h_1 h goal hat =>
      rw [Option.some.injEq] at hs
      subst hs
      left
      rw [tryGetReadyFred]
      split <;> rfl
    case h_2 => cases hs
  | searchSteal w victim p =>
    simp only [step] at hs
    split at hs
    case h_1 =>
      simp only [Option.ite_none_right_eq_some, Option.some.injEq] at hs
      obtain ⟨-, rfl⟩ := hs
      exact .inl rfl
    case h_2 => cases hs
  | searchLocal w p | searchFails w | handover w | stackSwitch w =>
    simp only [step] at hs
    split at hs
    case h_1 =>
      rw [Option.some.injEq] at hs
      subst hs
      exact .inl rfl
    case h_2 => cases hs

/-- ISOLATION: in every state of every run the queues, the dispatches and the migrations keep within
    their processors and schedulers, and of a started fibre with an affinity only its own `migrate`
    changes the processor. -/
theorem clusters_isolated (c : Config W S) (s : State W X G S) (h : Reach (system X G c) s) :
    Isolated c s ∧ ∀ a s' f, step c s a = some s' → (s.fred f).life ≠ .fresh →
      (s.fred f).affinity = true → (s'.fred f).processor ≠ (s.fred f).processor →
      ∃ w proc, a = .migrate w proc ∧ s.pc w = .exec f := by
  refine ⟨(Inv.reach h).isolated, fun a s' f hs hstarted haffinity hchanged => ?_⟩
  exact (kept_or_migrates hs hstarted haffinity).resolve_left hchanged

/-! ### Runs of two workers, each with a scheduler of its own -/

/-- Both run a fibre of their own. -/
def twoClusters : State Bool Unit Bool Bool where
  pc w := .exec (.user w)
  adding _ := .done
  readyQueue _ _ := []
  idleManager _ := ⟨0, [], []⟩
  halting _ := false
  haltSem _ := 0
  handoverFred _ := none
  fred
    | .user w => ⟨w, .DefaultPriority, false, Running, .started, none⟩
    | .idle w => ⟨w, .DefaultPriority, true, Running, .started, none⟩

def separate : Config Bool Bool := ⟨id, false, false⟩

theorem booted_twoClusters : Booted twoClusters where
  exec w := .inr ⟨w, rfl⟩
  once w w' f h h' := by
    rw [← h'] at h
    exact Fibre.user.inj (Pc.exec.inj h)
  adding _ := rfl
  readyQueue _ _ := rfl
  idleManager _ := rfl
  halting _ := rfl
  haltSem _ := rfl
  fred f := by cases f <;> exact ⟨rfl, rfl⟩
  started w g h := by
    rw [← Fibre.user.inj (Pc.exec.inj h)]
    exact ⟨rfl, rfl⟩
  fresh g h := absurd rfl (h g)
  idle _ := ⟨rfl, rfl, rfl⟩

/-- A fibre leaves for the other worker while that one is in its own fibre, which makes way for it. -/
theorem isolated_migrates : ∃ s, Reach (system Unit Bool separate) s ∧
    s.pc true = .exec (.user false) ∧ (s.fred (.user false)).target = some true ∧
    Isolated separate s := by
  obtain ⟨s, hs, hp⟩ := reach_of_exec (system Unit Bool separate) twoClusters
    [.migrate false true, .tryGetReadyFred false true false, .stackSwitch false, .post false,
      .addNext (.inl false), .addNext (.inl false), .addNext (.inl false),
      .yield true, .searchLocal true .DefaultPriority, .stackSwitch true, .post true]
    (fun s => decide (s.pc true = .exec (.user false)) &&
      decide ((s.fred (.user false)).target = some true)) booted_twoClusters (by decide)
  simp only [Bool.and_eq_true, decide_eq_true_iff] at hp
  exact ⟨s, hs, hp.1, hp.2, (clusters_isolated separate s hs).1⟩

/-- A fibre is parked on one cluster, and one of the other cluster resumes it with a direct switch. -/
theorem dispatched_elsewhere : ∃ s, Reach (system Unit Bool separate) s ∧
    (s.pc false).dispatches = some (.direct, .user true) ∧
    separate.scheduler (s.fred (.user true)).processor ≠ separate.scheduler false := by
  obtain ⟨s, hs, hp⟩ := reach_of_exec (system Unit Bool separate) twoClusters
    [.suspend true, .tryGetReadyFred true true false, .stackSwitch true, .post true,
      .resumeDirect false true]
    (fun s => decide ((s.pc false).dispatches = some (.direct, .user true)) &&
      (s.fred (.user true)).processor) booted_twoClusters (by decide)
  simp only [Bool.and_eq_true, decide_eq_true_iff] at hp
  refine ⟨s, hs, hp.1, ?_⟩
  show (s.fred (.user true)).processor ≠ false
  rw [hp.2]
  decide

end Libfibre.Isolation
