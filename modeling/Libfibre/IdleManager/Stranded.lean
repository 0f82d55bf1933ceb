import Libfibre.IdleManager.Counters
import Mathlib.Algebra.Group.Fin.Basic

/-! When a ready fibre is stranded. A push is followed by an `unblock`, and that ends in one of two ways:
    it wakes somebody, who has all searches before him, or it finds `waitCounter` at 0, and then the
    owner of the queue has its last search before it. So somebody has the queue still ahead, and hands
    this on to the holder of the lock when he gives up on it. This ends with a holder who has looked at
    the queue before the push and is on his way to halt. -/

namespace Libfibre.IdleManager
open Transition Tally

variable {n : ℕ} {P Fb : Type}

/-! ### The ring -/

/-- How many steps of the ring lead from `w` to `v`. -/
def dist (w v : Fin (n + 1)) : ℕ := (v - w).val

theorem dist_self (w : Fin (n + 1)) : dist w w = 0 := by simp [dist]

theorem dist_le (w v : Fin (n + 1)) : dist w v ≤ n := Nat.le_of_lt_succ (v - w).isLt

theorem dist_next {w v : Fin (n + 1)} (h : v + 1 ≠ w) : dist w (v + 1) = dist w v + 1 := by
  have hlast : v - w ≠ Fin.last n := fun heq => h (by
    have hzero : v - w + 1 = 0 := by rw [heq, Fin.last_add_one]
    rw [sub_add_eq_add_sub] at hzero
    exact sub_eq_zero.mp hzero)
  rw [dist, dist, ← sub_add_eq_add_sub, Fin.val_add_one, if_neg hlast]

theorem dist_end {w v : Fin (n + 1)} (h : v + 1 = w) : dist w v = n := by
  rw [dist, ← h, sub_add_cancel_left, Fin.coe_neg_one]

theorem dist_inj {w u v : Fin (n + 1)} (h : dist w u = dist w v) : u = v :=
  sub_left_injective (Fin.ext h)

/-! ### What is in a queue -/

theorem mem_priorities : ∀ p, p ∈ priorities := by decide

theorem probe_iff {queue : Priority → List Fb} : probe queue = true ↔ ∃ p, queue p ≠ [] := by
  simp [probe, List.any_eq_true, mem_priorities]

theorem dequeueInternal_shrinks {queue : Priority → List Fb} {p : Priority} :
    ∀ {ps : List Priority}, (dequeueInternal queue ps).2 p ≠ [] → queue p ≠ []
  | [], h => h
  | q :: ps, h => by
    rw [dequeueInternal] at h
    split at h
    · rename_i f rest hq
      rcases eq_or_ne p q with rfl | hp
      · rw [hq]; simp
      · rwa [show (some f, Function.update queue q rest).2 p = queue p from
          Function.update_of_ne hp _ _] at h
    · exact dequeueInternal_shrinks h

theorem dequeueInternal_none {queue : Priority → List Fb} :
    ∀ {ps : List Priority}, (dequeueInternal queue ps).1 = none → ∀ p ∈ ps, queue p = []
  | [], _ => by simp
  | q :: ps, h => by
    rw [dequeueInternal] at h
    split at h
    · cases h
    · rename_i hq
      rw [List.forall_mem_cons]
      exact ⟨hq, dequeueInternal_none h⟩

/-- A scan that finds nothing has seen empty queues. -/
theorem scan_none {queue : Priority → List Fb} (h : (dequeueInternal queue priorities).1 = none) :
    ∀ p, queue p = [] := fun p =>
  dequeueInternal_none h p (mem_priorities p)

/-! ### Who has a queue ahead -/

/-- A worker at a place in its search, or elsewhere, that is going to look at the queue of `v` before it
    halts, or has found a fibre. -/
def Pc.ahead (w v : Fin (n + 1)) : Pc n Fb → Prop
  | .search .last u (.release none) => dist w u < dist w v
  | .search .last _ (.release (some _)) => True
  | .search .last u _ => dist w u ≤ dist w v
  | .block | .halt => False
  | _ => True

/-- A worker that has the queue of `v` ahead, or has been woken. -/
def Awake (s : State n P Fb) (w v : Fin (n + 1)) : Prop :=
  (s.pc w).ahead w v ∨ (s.pc w = .halt ∧ 0 < s.haltSem w)

/-- INVARIANT: a fibre in a ready queue has an `unblock` in progress, or somebody has it ahead. -/
def Watched (s : State n P Fb) : Prop :=
  ∀ v, Ready s v → (∃ a, s.unblock a ≠ .done) ∨ ∃ w, Awake s w v

theorem ahead_search {ctx : Search} (h : ctx ≠ .last) (w v u : Fin (n + 1)) (st : Stage Fb) :
    (Pc.search ctx u st).ahead w v := by
  cases ctx with
  | last => exact absurd rfl h
  | full | yield _ | spin _ => trivial

theorem ahead_found (ctx : Search) (w v : Fin (n + 1)) : (found ctx : Pc n Fb).ahead w v := by
  cases ctx <;> trivial

/-- The next victim is no farther than a queue that is yet to come. -/
theorem ahead_advance {ctx : Search} {w v u : Fin (n + 1)}
    (h : ctx = .last → dist w u < dist w v) : (advance w ctx u : Pc n Fb).ahead w v := by
  rw [advance]
  cases ctx with
  | last =>
    have hlt := h rfl
    rw [if_neg]
    · have hne : u + 1 ≠ w := fun heq => by
        have := dist_end heq
        have := dist_le w v
        omega
      show dist w (u + 1) ≤ dist w v
      rw [dist_next hne]
      exact hlt
    · rintro (heq | heq)
      · cases heq
      · have := dist_end heq
        have := dist_le w v
        omega
  | spin i => split_ifs <;> first | trivial | (rw [notFound]; split_ifs <;> trivial)
  | full | yield _ => split_ifs <;> trivial

/-- The holder of a lock has the queue ahead, unless it has found it empty in its last search. -/
theorem ahead_of_holds {p : Pc n Fb} {w v : Fin (n + 1)} (h : p.holds = some v)
    (hlast : p ≠ .search .last v (.release none)) : p.ahead w v := by
  cases p with
  | search ctx u st =>
    rcases eq_or_ne ctx .last with rfl | hctx
    · cases st with
      | scan =>
        obtain rfl : u = v := Option.some.inj h
        exact le_rfl
      | release f =>
        obtain rfl : u = v := Option.some.inj h
        cases f with
        | none => exact absurd rfl hlast
        | some f => trivial
      | probe | acquire => cases h
    · exact ahead_search hctx w v u st
  | _ => cases h

section Steps
variable {s s' : State n P Fb} {w v u : Fin (n + 1)} {ctx : Search} {st : Stage Fb}

theorem Awake.goto (h : (s'.pc w).ahead w v) : ∃ x, Awake s' x v := ⟨w, Or.inl h⟩

/-- A queue that is ready and not that of `u` comes after `u`. -/
theorem dist_lt (hle : dist w u ≤ dist w v) (hne : u ≠ v) : dist w u < dist w v :=
  lt_of_le_of_ne hle fun heq => hne (dist_inj heq)

/-- STEP: a worker that has a ready queue ahead keeps it ahead, or hands it on. -/
theorem awake_searchNext (hl : Locked s) (hpc : s.pc w = .search ctx u st)
    (hok : givesUp s (.next w) = false) (hready : Ready s' v) (h : (s.pc w).ahead w v)
    (hs : searchNext s w ctx u st = some s') : ∃ x, Awake s' x v := by
  rw [hpc] at h
  cases st with
  | probe =>
    obtain rfl := Option.some.inj hs
    refine Awake.goto (w := w) ?_
    simp only [State.goto, Function.update_self]
    split_ifs with hprobe
    · rcases eq_or_ne ctx .last with rfl | hctx
      · exact h
      · exact ahead_search hctx w v u .acquire
    · refine ahead_advance fun hlast => ?_
      subst hlast
      exact dist_lt h fun heq => hprobe (probe_iff.mpr (heq ▸ hready))
  | acquire =>
    rw [searchNext] at hs
    split at hs
    · obtain rfl := Option.some.inj hs
      refine Awake.goto (w := w) ?_
      simp only [State.goto, Function.update_self]
      rcases eq_or_ne ctx .last with rfl | hctx
      · exact h
      · exact ahead_search hctx w v u .scan
    · rename_i x hheld
      split_ifs at hs with hown
      obtain rfl := Option.some.inj hs
      by_cases hhere : ctx = .last ∧ u = v
      · obtain ⟨rfl, rfl⟩ := hhere
        have hholds := (hl u x).mp hheld
        have hx : x ≠ w := fun heq => by
          rw [heq, hpc] at hholds; cases hholds
        refine ⟨x, Or.inl ?_⟩
        simp only [State.goto, Function.update_of_ne hx]
        refine ahead_of_holds hholds fun hempty => ?_
        have hprobe : probe (s.queue u) = true := probe_iff.mpr hready
        simp [givesUp, hpc, hown, hprobe, hheld, hempty] at hok
      · refine Awake.goto (w := w) ?_
        simp only [State.goto, Function.update_self]
        refine ahead_advance fun hlast => ?_
        subst hlast
        exact dist_lt h fun heq => hhere ⟨rfl, heq⟩
  | scan =>
    obtain rfl := Option.some.inj hs
    refine Awake.goto (w := w) ?_
    simp only [State.goto, Function.update_self]
    rcases eq_or_ne ctx .last with rfl | hctx
    · cases hr : (dequeueInternal (s.queue u) priorities).1 with
      | some f => trivial
      | none =>
        refine dist_lt h ?_
        rintro rfl
        obtain ⟨p, hp⟩ := hready
        simp only [State.goto, Function.update_self] at hp
        exact dequeueInternal_shrinks hp (scan_none hr p)
    · exact ahead_search hctx w v u _
  | release f =>
    obtain rfl := Option.some.inj hs
    refine Awake.goto (w := w) ?_
    simp only [State.goto, Function.update_self]
    split_ifs with hf
    · exact ahead_found ctx w v
    · refine ahead_advance fun hlast => ?_
      subst hlast
      cases f with
      | some f => exact absurd rfl hf
      | none => exact h

theorem awake_workerNext [DecidableEq P] (hl : Locked s) (hok : givesUp s (.next w) = false)
    (hready : Ready s' v)
    (h : Awake s w v) (hs : workerNext s w = some s') : ∃ x, Awake s' x v := by
  rw [workerNext] at hs
  cases hpc : s.pc w with
  | busy | postYield => rw [hpc] at hs; cases hs
  | search ctx u st =>
    rw [hpc] at hs
    refine awake_searchNext hl hpc hok hready (h.resolve_right ?_) hs
    rw [hpc]
    rintro ⟨h, -⟩
    cases h
  | block =>
    rcases h with h | ⟨h, -⟩ <;> rw [hpc] at h <;> cases h
  | halt =>
    simp only [hpc] at hs
    split_ifs at hs
    obtain rfl := Option.some.inj hs
    exact Awake.goto (w := w) (by simp [State.goto, Pc.ahead])
  | incWaiting =>
    rw [hpc] at hs
    obtain rfl := Option.some.inj hs
    refine Awake.goto (w := w) ?_
    simp only [State.goto, Function.update_self]
    show dist w w ≤ dist w v
    rw [dist_self]
    exact Nat.zero_le _
  | incSpinning | unblockSpin | decSpinning | decWaiting =>
    rw [hpc] at hs
    obtain rfl := Option.some.inj hs
    exact Awake.goto (w := w) (by simp [State.goto, Pc.ahead])

/-! ### What a step leaves alone -/

/-- A step of a worker changes no other worker, ends no `unblock` and fills no queue. -/
structure Alone (s s' : State n P Fb) (w : Fin (n + 1)) : Prop where
  pc : ∀ x, x ≠ w → s'.pc x = s.pc x
  haltSem : ∀ x, x ≠ w → s'.haltSem x = s.haltSem x
  unblock : ∀ a, s.unblock a ≠ .done → s'.unblock a ≠ .done
  ready : ∀ v, Ready s' v → Ready s v

theorem alone_searchNext (hs : searchNext s w ctx u st = some s') : Alone s s' w := by
  have hpc : ∀ p x, x ≠ w → (s.goto w p).pc x = s.pc x := fun _ _ hx => Function.update_of_ne hx _ _
  cases st with
  | probe =>
    obtain rfl := Option.some.inj hs
    exact ⟨hpc _, fun _ _ => rfl, fun _ h => h, fun _ h => h⟩
  | acquire =>
    rw [searchNext] at hs
    split at hs
    · obtain rfl := Option.some.inj hs
      exact ⟨hpc _, fun _ _ => rfl, fun _ h => h, fun _ h => h⟩
    · split_ifs at hs
      obtain rfl := Option.some.inj hs
      exact ⟨hpc _, fun _ _ => rfl, fun _ h => h, fun _ h => h⟩
  | scan =>
    obtain rfl := Option.some.inj hs
    refine ⟨hpc _, fun _ _ => rfl, fun _ h => h, fun v => ?_⟩
    rintro ⟨p, hp⟩
    simp only [State.goto] at hp
    rcases eq_or_ne v u with rfl | hv
    · rw [Function.update_self] at hp
      exact ⟨p, dequeueInternal_shrinks hp⟩
    · rw [Function.update_of_ne hv] at hp
      exact ⟨p, hp⟩
  | release f =>
    obtain rfl := Option.some.inj hs
    exact ⟨hpc _, fun _ _ => rfl, fun _ h => h, fun _ h => h⟩

theorem alone_workerNext [DecidableEq P] (hs : workerNext s w = some s') : Alone s s' w := by
  have hpc : ∀ p x, x ≠ w → (s.goto w p).pc x = s.pc x := fun _ _ hx => Function.update_of_ne hx _ _
  rw [workerNext] at hs
  cases hp : s.pc w with
  | busy | postYield => rw [hp] at hs; cases hs
  | search ctx u st =>
    rw [hp] at hs
    exact alone_searchNext hs
  | halt =>
    simp only [hp] at hs
    split_ifs at hs
    obtain rfl := Option.some.inj hs
    exact ⟨hpc _, fun x hx => Function.update_of_ne hx _ _, fun _ h => h, fun _ h => h⟩
  | unblockSpin =>
    rw [hp] at hs
    obtain rfl := Option.some.inj hs
    refine ⟨hpc _, fun _ _ => rfl, fun a ha => ?_, fun _ h => h⟩
    simp only [State.goto]
    split_ifs
    · rcases eq_or_ne a (.inl w) with rfl | hne
      · rw [Function.update_self]; simp
      · rwa [Function.update_of_ne hne]
    · exact ha
  | incSpinning | decSpinning | incWaiting | decWaiting | block =>
    rw [hp] at hs
    obtain rfl := Option.some.inj hs
    exact ⟨hpc _, fun _ _ => rfl, fun _ h => h, fun _ h => h⟩

end Steps

/-! ### Every step -/

theorem halt_of_halts {p : Pc n Fb} (h : 0 < p.halts) : p = .halt := by
  cases p <;> first | rfl | cases h

section System
variable [DecidableEq P] [Fintype P] {priority : Fb → Priority} {s s' : State n P Fb}
  {w v : Fin (n + 1)}

omit [DecidableEq P] in
/-- An `unblock` that finds `waitCounter` at 0 leaves the owner of any queue awake. -/
theorem awake_of_waitCounter (hc : Counts s) (hzero : s.waitCounter = 0)
    (hwakes : ∀ a, (s.unblock a).wakes v = 0) : Awake s v v := by
  have hwait := hc.wait
  rw [hzero] at hwait
  have hpc : (s.pc v).waits = 0 := by
    have := le_tally Pc.waits s.pc v
    omega
  cases hp : s.pc v with
  | halt =>
    refine Or.inr ⟨hp, ?_⟩
    have htoken := hc.halt v
    have hlist : s.waitingProcs = [] := List.length_eq_zero_iff.mp (by omega)
    rw [hlist, tally_eq_zero hwakes, hp] at htoken
    simp only [List.count_nil, Pc.halts] at htoken
    omega
  | search ctx u st =>
    refine Or.inl ?_
    rw [hp] at hpc ⊢
    refine ahead_search ?_ v v u st
    rintro rfl
    cases hpc
  | decWaiting | block => rw [hp] at hpc; cases hpc
  | busy | postYield | incSpinning | unblockSpin | decSpinning | incWaiting =>
    exact Or.inl (by rw [hp]; trivial)

/-- The last `unblock` to end leaves somebody awake. -/
theorem watched_unblockNext {a : Agent n P} {contended : Bool} (hc : Counts s)
    (hs : unblockNext s a contended = some s') : Watched s' := by
  intro v hready
  by_cases hbusy : ∃ b, s'.unblock b ≠ .done
  · exact Or.inl hbusy
  · have hdone : ∀ b, s'.unblock b = .done := fun b => not_not.mp fun h => hbusy ⟨b, h⟩
    refine Or.inr ?_
    rw [unblockNext] at hs
    cases hu : s.unblock a with
    | done => rw [hu] at hs; cases hs
    | loop =>
      rw [hu] at hs
      obtain rfl := Option.some.inj hs
      have hself := hdone a
      simp only [State.gotoUnblock, Function.update_self] at hself
      split_ifs at hself with hpos
      have hwakes : ∀ b, (s.unblock b).wakes v = 0 := by
        intro b
        rcases eq_or_ne b a with rfl | hne
        · rw [hu]; rfl
        · have hother := hdone b
          simp only [State.gotoUnblock, Function.update_of_ne hne] at hother
          rw [hother]; rfl
      have hawake : Awake s v v := awake_of_waitCounter hc (Nat.eq_zero_of_not_pos hpos) hwakes
      exact ⟨v, hawake⟩
    | tryAcquire =>
      exfalso
      simp only [hu] at hs
      split_ifs at hs
      · obtain rfl := Option.some.inj hs
        simpa [State.gotoUnblock] using hdone a
      · split at hs
        all_goals
          obtain rfl := Option.some.inj hs
          simpa [State.gotoUnblock] using hdone a
    | decWaiting u =>
      exfalso
      rw [hu] at hs
      obtain rfl := Option.some.inj hs
      simpa [State.gotoUnblock] using hdone a
    | wake u =>
      rw [hu] at hs
      obtain rfl := Option.some.inj hs
      have htoken := hc.halt u
      have hone := le_tally (Unblock.wakes u) s.unblock a
      rw [hu, Unblock.wakes, if_pos rfl] at hone
      have hhalt : s.pc u = .halt := halt_of_halts (by omega)
      exact ⟨u, Or.inr ⟨hhalt, by simp [State.gotoUnblock]⟩⟩

omit [Fintype P] in
theorem watched_next (hl : Locked s) (hw : Watched s) (hok : givesUp s (.next w) = false)
    (hs : workerNext s w = some s') : Watched s' := by
  intro v hready
  have halone := alone_workerNext hs
  rcases hw v (halone.ready v hready) with ⟨a, ha⟩ | ⟨x, hx⟩
  · exact Or.inl ⟨a, halone.unblock a ha⟩
  · refine Or.inr ?_
    rcases eq_or_ne x w with rfl | hne
    · exact awake_workerNext hl hok hready hx hs
    · refine ⟨x, ?_⟩
      rw [Awake, halone.pc x hne, halone.haltSem x hne]
      exact hx

/-- STEP: as long as nobody gives up on a queue that way, every ready fibre stays watched. -/
theorem watched_step {a : Action n P Fb} (hl : Locked s) (hc : Counts s) (hw : Watched s)
    (hok : givesUp s a = false) (hs : step priority s a = some s') : Watched s' := by
  cases a with
  | next w =>
    exact watched_next hl hw hok (step_cases hs).2
  | suspend w | yield w everywhere | postYield w v f =>
    obtain ⟨-, rfl⟩ := step_cases hs
    refine fun v _ => Or.inr (Awake.goto (w := w) ?_)
    simp [State.goto, Pc.ahead]
  | enqueueResume a v f =>
    obtain ⟨-, rfl⟩ := step_cases hs
    exact fun _ _ => Or.inl ⟨a, by simp [State.gotoUnblock]⟩
  | unblockNext a contended => exact watched_unblockNext hc hs

/-- RUN: in a run in which nobody gives up on a queue that way, every ready fibre is watched. -/
theorem watched_run {as : List (Action n P Fb)}
    (h : Run (system priority) (Avoids givesUp) as s) : Watched s := by
  refine (h.inv (I := fun s => (Locked s ∧ Counts s) ∧ Watched s) ?_ ?_).2
  · intro s hs
    refine ⟨⟨locked_start hs, counts_start hs⟩, ?_⟩
    rintro v ⟨p, hp⟩
    exact absurd (hs.queue v p) hp
  · rintro s a s' ⟨⟨hl, hc⟩, hw⟩ hok hs
    exact ⟨⟨locked_step hl hs, counts_step hc hs⟩, watched_step hl hc hw hok hs⟩

/-- CORRECT: in a run in which no worker, in its last search, gives up on a ready queue with a fibre
    because of a lock held by one that found this queue empty in its own last search, no ready fibre
    is ever stranded. -/
theorem never_stranded {as : List (Action n P Fb)}
    (h : Run (system priority) (Avoids givesUp) as s) : ¬ Stranded s := by
  rintro ⟨hpc, hdone, v, hready⟩
  rcases watched_run h v hready with ⟨a, ha⟩ | ⟨w, hahead | ⟨hhalt, hsem⟩⟩
  · exact ha (hdone a)
  · rcases hpc w with hblock | ⟨hhalt, -⟩
    · rw [hblock] at hahead; exact hahead
    · rw [hhalt] at hahead; exact hahead
  · rcases hpc w with hblock | ⟨-, hzero⟩
    · rw [hblock] at hhalt; cases hhalt
    · omega

end System

/-! ### Two workers and a poller -/

abbrev Duo := State 1 (Fin 1) Unit

def duo : System Duo (Action 1 (Fin 1) Unit) := system fun _ => DefaultPriority

/-- Both workers enter their idle loops. -/
def start : Duo where
  queue _ _ := []
  readyLock _ := none
  spinCounter := 0
  waitCounter := 0
  waitingProcs := []
  haltSem _ := 0
  pc _ := .incSpinning
  unblock _ := .done

theorem start_start : Start start :=
  ⟨fun _ _ => rfl, fun _ => rfl, rfl, rfl, rfl, fun _ => rfl, fun _ => Or.inl rfl, fun _ => rfl⟩

/-- A search of the worker finds nothing: its own queue is empty, and the other one empty or locked. -/
structure Fruitless (s : Duo) (w : Fin 2) : Prop where
  done : s.unblock (.inl w) = .done
  free : s.readyLock w = none
  empty : ∀ p, s.queue w p = []
  victim : (∀ p, s.queue (w + 1) p = []) ∨ s.readyLock (w + 1) ≠ none

section Scene
variable {s : Duo} {w : Fin 2} {ctx : Search}

theorem dequeueInternal_empty {queue : Priority → List Fb} (h : ∀ p, queue p = []) :
    ∀ ps, dequeueInternal queue ps = (none, queue)
  | [] => rfl
  | p :: ps => by rw [dequeueInternal, h p]; exact dequeueInternal_empty h ps

@[simp] theorem goto_goto (s : Duo) (w : Fin 2) (p q : Pc 1 Unit) :
    (s.goto w p).goto w q = s.goto w q := by
  simp [State.goto]

theorem next_reach {s' : Duo} (h : Reach duo s) (hdone : s.unblock (.inl w) = .done)
    (hs : workerNext s w = some s') : Reach duo s' :=
  h.step (a := .next w) (by rw [← hs]; exact if_pos hdone)

theorem search_fails (h : Reach duo (s.goto w (.search ctx w .acquire))) (hf : Fruitless s w)
    (hctx : ctx ≠ .yield false) : Reach duo (s.goto w (notFound w ctx)) := by
  obtain ⟨hdone, hfree, hempty, hvictim⟩ := hf
  have hscan : Reach duo (State.goto { s with readyLock := Function.update s.readyLock w (some w) } w
      (.search ctx w .scan)) :=
    next_reach (w := w) h hdone (by simp [workerNext, searchNext, State.goto, hfree])
  have hrelease : Reach duo (State.goto { s with
      readyLock := Function.update s.readyLock w (some w) } w (.search ctx w (.release none))) :=
    next_reach (w := w) hscan hdone (by
      simp [workerNext, searchNext, State.goto, dequeueInternal_empty hempty])
  have hnext : w + 1 ≠ w := (show ∀ w : Fin 2, w + 1 ≠ w by decide) w
  have hback : w + 1 + 1 = w := (show ∀ w : Fin 2, w + 1 + 1 = w by decide) w
  have hprobe : Reach duo (s.goto w (.search ctx (w + 1) .probe)) := by
    refine next_reach (w := w) hrelease hdone ?_
    simp only [workerNext, searchNext, State.goto, Function.update_self, Function.update_idem,
      Option.isSome_none, advance, hctx, hnext, false_or, if_false, Bool.false_eq_true]
    rw [← hfree, Function.update_eq_self]
  have hover : advance w ctx (w + 1) = (notFound w ctx : Pc 1 Unit) := by
    rw [advance, if_pos (Or.inr hback)]
  by_cases hseen : probe (s.queue (w + 1)) = true
  · obtain ⟨x, hheld⟩ : ∃ x, s.readyLock (w + 1) = some x := by
      rcases hvictim with hnone | hlocked
      · obtain ⟨p, hp⟩ := probe_iff.mp hseen
        exact absurd (hnone p) hp
      · exact Option.ne_none_iff_exists'.mp hlocked
    have hacquire : Reach duo (s.goto w (.search ctx (w + 1) .acquire)) :=
      next_reach (w := w) hprobe hdone (by simp [workerNext, searchNext, State.goto, hseen])
    exact next_reach (w := w) hacquire hdone (by
      simp [workerNext, searchNext, State.goto, hheld, hover])
  · exact next_reach (w := w) hprobe hdone (by
      simp [workerNext, searchNext, State.goto, hseen, hover])

/-- The spin loop, from any of its rounds. -/
theorem spins (hf : Fruitless s w) : ∀ k i, i + k + 1 = idleSpinMax →
    Reach duo (s.goto w (.search (.spin i) w .acquire)) → Reach duo (s.goto w .decSpinning)
  | 0, i, hi, h => by
    have hend := search_fails h hf (by simp)
    rwa [notFound, if_neg (by omega)] at hend
  | k + 1, i, hi, h => by
    have hround := search_fails h hf (by simp)
    rw [notFound, if_pos (by omega)] at hround
    exact spins hf k (i + 1) (by omega) hround

/-- A worker that enters the idle loop in vain comes to its last search. -/
theorem idles (hf : Fruitless s w) (h : Reach duo s) (hpc : s.pc w = .incSpinning) :
    Reach duo (s.goto w .incWaiting) := by
  have hspin : Reach duo (State.goto { s with spinCounter := s.spinCounter + 1 } w
      (.search (.spin 1) w .acquire)) :=
    next_reach (w := w) h hf.done (by rw [workerNext, hpc])
  have hdec := spins (s := { s with spinCounter := s.spinCounter + 1 })
    ⟨hf.done, hf.free, hf.empty, hf.victim⟩ 1022 1 rfl hspin
  exact next_reach (w := w) hdec hf.done (by simp [workerNext, State.goto])

/-- The worker halts. -/
def halted (s : Duo) (w : Fin 2) : Duo :=
  State.goto { s with waitCounter := s.waitCounter + 1, waitingProcs := w :: s.waitingProcs } w .halt

theorem halts (hf : Fruitless s w) (h : Reach duo s) (hpc : s.pc w = .incSpinning) :
    Reach duo (halted s w) := by
  have hlast : Reach duo (State.goto { s with waitCounter := s.waitCounter + 1 } w
      (.search .last w .acquire)) :=
    next_reach (w := w) (idles hf h hpc) hf.done (by simp [workerNext, State.goto])
  have hblock := search_fails (s := { s with waitCounter := s.waitCounter + 1 }) hlast
    ⟨hf.done, hf.free, hf.empty, hf.victim⟩ (by simp)
  exact next_reach (w := w) hblock hf.done (by simp [workerNext, notFound, State.goto, halted])

end Scene

/-- Worker 1 has halted, and worker 0 is about to make its last search. -/
def oneHalted : Duo := (halted start 1).goto 0 .incWaiting

theorem oneHalted_reach : Reach duo oneHalted := by
  have hhalted : Reach duo (halted start 1) :=
    halts ⟨rfl, rfl, fun _ => rfl, Or.inl fun _ => rfl⟩ (Reach.start start_start) rfl
  exact idles ⟨rfl, rfl, fun _ => rfl, Or.inl fun _ => rfl⟩ hhalted rfl

/-- Worker 0 scans its queue and is about to release its lock; a fibre is pushed onto the queue and
    worker 1 woken for it. -/
def push : List (Action 1 (Fin 1) Unit) :=
  [.next 0, .next 0, .next 0, .enqueueResume (.inr 0) 0 (), .unblockNext (.inr 0) false,
    .unblockNext (.inr 0) false, .unblockNext (.inr 0) false, .unblockNext (.inr 0) false, .next 1]

/-- Worker 1 on its way, worker 0 in the way. -/
def Caught (s : Duo) : Prop :=
  s.pc 0 = .search .last 0 (.release none) ∧ s.pc 1 = .incSpinning ∧
    s.readyLock 0 = some 0 ∧ s.readyLock 1 = none ∧
    s.queue 0 DefaultPriority = [()] ∧ (∀ p, s.queue 1 p = []) ∧
    s.haltSem 1 = 0 ∧ ∀ a, s.unblock a = .done

instance (s : Duo) : Decidable (Caught s) := by
  unfold Caught
  infer_instance

theorem caught_reach : ∃ s, Reach duo s ∧ Caught s := by
  obtain ⟨s, hs, hcaught⟩ := Option.map_eq_some_iff.mp
    (show (exec duo oneHalted push).map (fun s => decide (Caught s)) = some true by decide)
  exact ⟨s, oneHalted_reach.exec hs, of_decide_eq_true hcaught⟩

/-- WRONG: worker 1 gives up on the locked queue in all its searches and halts again, and worker 0
    halts without another look. -/
theorem stranded_reached : ¬ ∀ s, Reach duo s → ¬ Stranded s := by
  intro hall
  obtain ⟨s, hr, hpc, hpc', hlock, hlock', hqueue, hempty, hsem, hdone⟩ := caught_reach
  have hhalted : Reach duo (halted s 1) :=
    halts ⟨hdone _, hlock', hempty, Or.inr (by rw [show (1 : Fin 2) + 1 = 0 by decide, hlock]; simp)⟩
      hr hpc'
  have hprobe : Reach duo (State.goto { halted s 1 with
      readyLock := Function.update s.readyLock 0 none } 0 (.search .last 1 .probe)) := by
    refine next_reach (w := 0) hhalted (hdone _) ?_
    simp only [workerNext, halted, State.goto]
    rw [Function.update_of_ne (by decide), hpc]
    rfl
  have hblock : Reach duo (State.goto { halted s 1 with
      readyLock := Function.update s.readyLock 0 none } 0 .block) := by
    refine next_reach (w := 0) hprobe (hdone _) ?_
    have hnothing : probe (s.queue 1) = false := by
      rw [Bool.eq_false_iff, Ne, probe_iff]
      rintro ⟨p, hp⟩
      exact hp (hempty p)
    simp [workerNext, halted, State.goto, searchNext, hnothing, advance, notFound]
  refine hall _ hblock ⟨fun w => ?_, hdone, 0, DefaultPriority, by simp [halted, State.goto, hqueue]⟩
  rcases (show ∀ w : Fin 2, w = 0 ∨ w = 1 by decide) w with rfl | rfl
  · exact Or.inl rfl
  · exact Or.inr ⟨rfl, hsem⟩

/-- A fibre that is pushed while the workers spin is run. -/
def served : List (Action 1 (Fin 1) Unit) :=
  [.next 0, .next 1, .enqueueResume (.inr 0) 0 (), .next 1, .unblockNext (.inr 0) false, .next 1,
    .next 1, .next 1, .next 1, .next 1, .next 1, .next 1]

theorem never_stranded_served : ∃ s : Duo,
    Run duo (Avoids givesUp) served s ∧ s.pc 1 = .busy ∧ ¬ Stranded s := by
  obtain ⟨s, hr, hp⟩ := run_of_execAvoiding duo givesUp start served (fun s => s.pc 1 == .busy)
    start_start (by decide)
  exact ⟨s, hr, beq_iff_eq.mp hp, never_stranded hr⟩

end Libfibre.IdleManager
