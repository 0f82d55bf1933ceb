import Libfibre.Isolation.Model
import Libfibre.Scheduler.Places
import Libfibre.Schemes.Placement
import Mathlib.Data.List.Nodup
import Libfibre.Schemes.Threads

/-! Where the fibres are, and what their places ask of `processor`. A fibre has one place at most; a
    worker that is halted is in one list, hand or semaphore that will wake it, so that the fibre in its
    `handoverFred` is read once. The lemmas keep the invariant when a worker goes on, a thread takes a
    fibre in hand or gives it away, and a queue is pushed or popped; none of them knows of the
    actions. -/

namespace Libfibre.Isolation
open Scheduler (Fibre Priority Life)
open Fred (Parked Running ResumedEarly fetchAdd fetchSub)
open Placement

variable {W X G S : Type}

/-! ### Places -/

/-- A fibre that leaves a worker for this is in no `migrate`. -/
def Goal.settled : Goal → Bool
  | .migrate | .resume => false
  | _ => true

inductive Place (W X S : Type) where
  | runs (w : W)
  | leaves (w : W) (settled : Bool)         -- its worker looks for, or switches to, another fibre
  | next (w : W) (direct : Bool)
  | taking (w : W)                          -- in `handoverFred`, past `haltSem.P`
  | reading (t : W ⊕ X)
  | adding (t : W ⊕ X) (proc : W)
  | waking (t : W ⊕ X) (proc : W)
  | written (t : W ⊕ X) (proc : W)          -- in `handoverFred`, before `haltSem.V`
  | posted (w : W)                          -- in `handoverFred`, between the two
  | ready (w : W) (p : Priority)
  | waiting (x : S)

/-- The worker that has the fibre. -/
def Place.worker : Place W X S → Option W
  | .runs w | .leaves w _ | .next w _ | .taking w => some w
  | _ => none

/-- The thread that enqueues or hands over the fibre. -/
def Place.thread : Place W X S → Option (W ⊕ X)
  | .reading t | .adding t _ | .waking t _ | .written t _ => some t
  | _ => none

/-- The fibres of a worker, `slot` being its `handoverFred`. -/
def Pc.places (w : W) (slot : Option (Fibre W G)) : Pc W G → List (Fibre W G × Place W X S)
  | .exec f => [(f, .runs w)]
  | .token f goal | .search f goal _ => [(f, .leaves w goal.settled)]
  | .taken f goal g | .chosen f goal g | .post f goal g =>
    [(f, .leaves w goal.settled), (g, .next w (decide (goal = .direct)))]
  | .getReadyFred | .block | .halt => [(.idle w, .leaves w true)]
  | .handover => (.idle w, .leaves w true) :: (slot.map fun f => (f, .taking w)).toList

/-- The fibre of a thread. -/
def Add.places (t : W ⊕ X) (slot : W → Option (Fibre W G)) :
    Add W G → List (Fibre W G × Place W X S)
  | .done => []
  | .reading f _ => [(f, .reading t)]
  | .addReadyFred f proc | .enqueueFred f proc | .unblock f proc => [(f, .adding t proc)]
  | .wake f proc => [(f, .waking t proc)]
  | .haltSemV proc => ((slot proc).map fun f => (f, .written t proc)).toList

/-- What worker `w` has if it is at `a`, and thread `t` if it is. -/
def State.AtPc (s : State W X G S) (w : W) (a : Pc W G) (f : Fibre W G) (p : Place W X S) : Prop :=
  (f, p) ∈ a.places w (s.handoverFred w)

def State.AtAdd (s : State W X G S) (t : W ⊕ X) (a : Add W G) (f : Fibre W G) (p : Place W X S) :
    Prop :=
  (f, p) ∈ a.places t s.handoverFred

/-- The fibres that neither a worker nor a thread has. -/
def State.Stored (s : State W X G S) (f : Fibre W G) : Place W X S → Prop
  | .posted w => 0 < s.haltSem w ∧ s.handoverFred w = some f
  | .ready w r => f ∈ s.readyQueue w r
  | .waiting x => f ∈ (s.idleManager x).waitingFreds
  | _ => False

def State.Has (s : State W X G S) (f : Fibre W G) (p : Place W X S) : Prop :=
  (∃ w, s.AtPc w (s.pc w) f p) ∨ (∃ t, s.AtAdd t (s.adding t) f p) ∨ s.Stored f p

/-- What a place asks of a fibre. -/
def Place.Fits (c : Config W S) (r : FredState W S) : Place W X S → Prop
  | .runs w => ∀ x, r.target = some x → c.scheduler w = x
  | .leaves _ settled => settled = true → r.target = none
  | .next w direct =>
    if direct then r.target = none else c.scheduler r.processor = c.scheduler w
  | .taking w | .posted w => c.scheduler r.processor = c.scheduler w
  | .reading _ => True
  | .adding _ proc => r.processor = proc
  | .waking _ proc | .written _ proc => c.scheduler r.processor = c.scheduler proc
  | .ready w _ => r.processor = w
  | .waiting x => c.scheduler r.processor = x

/-- A fibre at a place has been started and is not parked, and an idle fibre is with its worker. -/
structure Good (c : Config W S) (f : Fibre W G) (r : FredState W S) (p : Place W X S) : Prop where
  awake : r.runState ≠ Parked
  started : r.life ≠ .fresh
  idle : ∀ w, f = .idle w → p.worker = some w
  fits : p.Fits c r

/-- What holds of a fibre wherever it is. -/
structure FredState.Ok (c : Config W S) (f : Fibre W G) (r : FredState W S) : Prop where
  target : ∀ x, r.target = some x → c.scheduler r.processor = x ∧ r.runState ≠ Parked
  fresh : r.life = .fresh → r.runState ≠ Parked ∧ r.target = none
  idle : ∀ w, f = .idle w →
    r.processor = w ∧ r.runState ≠ Parked ∧ r.life ≠ .fresh ∧ r.target = none

/-- Idle fibres, and no others, look for another fibre out of idleness. -/
def Goal.Suits (w : W) (f : Fibre W G) (goal : Goal) : Prop :=
  (goal = .idle → f = .idle w) ∧ (goal ≠ .idle → ∃ g, f = .user g)

def Pc.Fits (w : W) : Pc W G → Prop
  | .token f goal | .search f goal _ | .taken f goal _ => goal ≠ .direct ∧ goal.Suits w f
  | .chosen f goal _ | .post f goal _ => goal.Suits w f
  | _ => True

/-! ### Halted workers -/

/-- The worker that a thread is about to wake. -/
def Add.proc : Add W G → Option W
  | .wake _ proc | .haltSemV proc => some proc
  | _ => none

inductive HaltPlace (W X S : Type) where
  | waiting (x : S)
  | waking (t : W ⊕ X)
  | posted

def State.HasProc (s : State W X G S) (w : W) : HaltPlace W X S → Prop
  | .waiting x => w ∈ (s.idleManager x).waitingProcs
  | .waking t => (s.adding t).proc = some w
  | .posted => 0 < s.haltSem w

/-- INVARIANT: of the fibres, the halted workers and the lists. -/
structure Inv (c : Config W S) (s : State W X G S) : Prop where
  freds : Placed s.Has fun f p => Good c f (s.fred f) p
  procs : Placed s.HasProc fun w q =>
    s.pc w = .halt ∧ ∀ x, q = .waiting x → c.scheduler w = x
  readyNodup : ∀ w p, (s.readyQueue w p).Nodup
  fredsNodup : ∀ x, (s.idleManager x).waitingFreds.Nodup
  procsNodup : ∀ x, (s.idleManager x).waitingProcs.Nodup
  haltSem : ∀ w, s.haltSem w ≤ 1
  halting : ∀ w, s.halting w = true → w ∈ (s.idleManager (c.scheduler w)).waitingProcs
  fred : ∀ f, (s.fred f).Ok c f
  pc : ∀ w, (s.pc w).Fits w

variable {c : Config W S} {s : State W X G S} {w : W} {t : W ⊕ X} {f g : Fibre W G}
  {p q : Place W X S}

theorem State.AtPc.worker {a : Pc W G} (h : s.AtPc w a f p) : p.worker = some w := by
  cases a with
  | exec _ | token _ _ | search _ _ _ | getReadyFred | block | halt =>
    rw [(Prod.mk.inj (List.mem_singleton.mp h)).2]
    rfl
  | taken _ _ _ | chosen _ _ _ | post _ _ _ =>
    simp only [State.AtPc, Pc.places, List.mem_cons, Prod.mk.injEq, List.not_mem_nil, or_false] at h
    rcases h with ⟨-, rfl⟩ | ⟨-, rfl⟩ <;> rfl
  | handover =>
    simp only [State.AtPc, Pc.places, List.mem_cons, Prod.mk.injEq, Option.mem_toList,
      Option.map_eq_some_iff] at h
    rcases h with ⟨-, rfl⟩ | ⟨_, -, -, rfl⟩ <;> rfl

theorem State.AtAdd.thread {a : Add W G} (h : s.AtAdd t a f p) : p.thread = some t := by
  cases a with
  | done => cases h
  | reading _ _ | addReadyFred _ _ | enqueueFred _ _ | unblock _ _ | wake _ _ =>
    rw [(Prod.mk.inj (List.mem_singleton.mp h)).2]
    rfl
  | haltSemV proc =>
    simp only [State.AtAdd, Add.places, Option.mem_toList, Option.map_eq_some_iff, Prod.mk.injEq] at h
    obtain ⟨_, -, -, rfl⟩ := h
    rfl

theorem Place.thread_of_worker (h : p.worker = some w) : p.thread = none := by
  cases p with
  | runs _ | leaves _ _ | next _ _ | taking _ => rfl
  | reading _ | adding _ _ | waking _ _ | written _ _ | posted _ | ready _ _ | waiting _ => cases h

theorem State.Stored.nobody (h : s.Stored f p) : p.worker = none ∧ p.thread = none := by
  cases p with
  | posted _ | ready _ _ | waiting _ => exact ⟨rfl, rfl⟩
  | runs _ | leaves _ _ | next _ _ | taking _ | reading _ | adding _ _ | waking _ _ | written _ _ =>
    cases h

/-- A place with a worker is filled by that worker. -/
theorem State.Has.of_worker (h : s.Has f p) (hp : p.worker = some w) :
    s.AtPc w (s.pc w) f p := by
  rcases h with ⟨v, hv⟩ | ⟨u, hu⟩ | h
  · have hvp := hv.worker
    rw [hp, Option.some.injEq] at hvp
    subst hvp
    exact hv
  · have hu := hu.thread
    rw [Place.thread_of_worker hp] at hu
    cases hu
  · rw [h.nobody.1] at hp
    cases hp

/-- The other places are filled by the lists and semaphores. -/
theorem State.Has.stored (h : s.Has f p) (hw : p.worker = none) (ht : p.thread = none) :
    s.Stored f p := by
  rcases h with ⟨v, hv⟩ | ⟨u, hu⟩ | h
  · rw [hv.worker] at hw
    cases hw
  · rw [hu.thread] at ht
    cases ht
  · exact h

/-- What the workers and the threads have does not depend on the lists and semaphores. -/
theorem State.Has.same {s' : State W X G S} (h : s'.Has f p) (hpc : s'.pc = s.pc)
    (hadd : s'.adding = s.adding) (hslot : s'.handoverFred = s.handoverFred) :
    s.Has f p ∧ ¬ (p.worker = none ∧ p.thread = none) ∨ s'.Stored f p := by
  rcases h with ⟨w, hw⟩ | ⟨t, ht⟩ | h
  · refine .inl ⟨.inl ⟨w, ?_⟩, fun hp => ?_⟩
    · rwa [State.AtPc, hpc, hslot] at hw
    · rw [hw.worker] at hp
      cases hp.1
  · refine .inl ⟨.inr (.inl ⟨t, ?_⟩), fun hp => ?_⟩
    · rwa [State.AtAdd, hadd, hslot] at ht
    · rw [ht.thread] at hp
      cases hp.2
  · exact .inr h

theorem State.has_ready {r : Priority} : s.Has f (.ready w r) ↔ f ∈ s.readyQueue w r :=
  ⟨fun h => h.stored rfl rfl, fun h => .inr (.inr h)⟩

theorem State.has_waiting {x : S} : s.Has f (.waiting x) ↔ f ∈ (s.idleManager x).waitingFreds :=
  ⟨fun h => h.stored rfl rfl, fun h => .inr (.inr h)⟩

/-! ### A worker goes on -/

section Worker
variable [DecidableEq W] {a : Pc W G}

/-- The fibres of other workers and of nobody stay where they are. -/
theorem has_setPc (h : (s.setPc w a).Has f p) :
    s.AtPc w a f p ∨ s.Has f p ∧ ¬ p.worker = some w := by
  rcases h with ⟨v, hv⟩ | ht | h
  · change s.AtPc v (Function.update s.pc w a v) f p at hv
    rcases eq_or_ne v w with rfl | hne
    · rw [Function.update_self] at hv
      exact .inl hv
    · rw [Function.update_of_ne hne] at hv
      refine .inr ⟨.inl ⟨v, hv⟩, ?_⟩
      rw [hv.worker, Option.some.injEq]
      exact hne
  · refine .inr ⟨.inr (.inl ht), fun hw => ?_⟩
    obtain ⟨u, hu⟩ := ht
    have hu := hu.thread
    rw [Place.thread_of_worker hw] at hu
    cases hu
  · refine .inr ⟨.inr (.inr h), fun hw => ?_⟩
    have h : s.Stored f p := h
    rw [h.nobody.1] at hw
    cases hw

omit [DecidableEq W] in
theorem Inv.noProc (hi : Inv c s) (hpc : s.pc w ≠ .halt) (q : HaltPlace W X S) : ¬ s.HasProc w q :=
  fun h => hpc (hi.procs.good w q h).1

/-- A worker that is not halted goes on with fibres that it had or that were nowhere. -/
theorem Inv.setPc (hi : Inv c s) (hhalt : s.pc w ≠ .halt) (hfits : a.Fits w)
    (hfrom : ∀ f p, s.AtPc w a f p → Nowhere s.Has f ∨ ∃ q, q.worker = some w ∧ s.Has f q)
    (hone : ∀ f p q, s.AtPc w a f p → s.AtPc w a f q → p = q)
    (hgood : ∀ f p, s.AtPc w a f p → Good c f (s.fred f) p) :
    Inv c (s.setPc w a) := by
  refine { hi with
    freds := hi.freds.refill (fun f p => has_setPc) ?_ hone hgood fun _ _ _ _ hg => hg
    procs := hi.procs.mono (fun _ _ => id) ?_
    pc := ?_ }
  · intro f p q hp hq
    rcases hfrom f p hp with hno | ⟨r, hr, hf⟩
    · exact absurd hq (hno q)
    · rw [hi.freds.one f q r hq hf]
      exact hr
  · intro v q hv hgood
    have hne : v ≠ w := by
      rintro rfl
      exact hi.noProc hhalt q hv
    refine ⟨?_, hgood.2⟩
    show Function.update s.pc w a v = .halt
    rw [Function.update_of_ne hne]
    exact hgood.1
  · intro v
    show (Function.update s.pc w a v).Fits v
    rcases eq_or_ne v w with rfl | hne
    · rw [Function.update_self]
      exact hfits
    · rw [Function.update_of_ne hne]
      exact hi.pc v

/-- A fibre that the worker had and has no more is nowhere. -/
theorem Inv.nowhere_setPc (hi : Inv c s) (hq : q.worker = some w) (hf : s.Has f q)
    (hno : ∀ p, ¬ s.AtPc w a f p) : Nowhere (s.setPc w a).Has f := by
  refine nowhere_of_refill (fun p => has_setPc) (fun p hp => ?_) hno
  rw [hi.freds.one f p q hp hf]
  exact hq

/-- The one fibre of a worker moves on with it. -/
theorem Inv.one (hi : Inv c s) (hhalt : s.pc w ≠ .halt) (hfits : a.Fits w)
    (ha : ∀ h r, s.AtPc w a h r → h = f ∧ r = p) (hq : q.worker = some w) (hf : s.Has f q)
    (hgood : Good c f (s.fred f) p) : Inv c (s.setPc w a) := by
  refine hi.setPc hhalt hfits (fun h r hr => ?_) (fun h r r' hr hr' => ?_) fun h r hr => ?_
  · obtain ⟨rfl, -⟩ := ha h r hr
    exact .inr ⟨q, hq, hf⟩
  · rw [(ha h r hr).2, (ha h r' hr').2]
  · obtain ⟨rfl, rfl⟩ := ha h r hr
    exact hgood

/-- A worker goes on with a fibre of its own and one more, which was its own or nowhere. -/
theorem Inv.two {b : Place W X S} (hi : Inv c s) (hhalt : s.pc w ≠ .halt) (hfits : a.Fits w)
    (ha : ∀ h r, s.AtPc w a h r → h = f ∧ r = p ∨ h = g ∧ r = b) (hq : q.worker = some w)
    (hf : s.Has f q) (hgood : Good c f (s.fred f) p)
    (hg : Nowhere s.Has g ∨ ∃ q', q'.worker = some w ∧ s.Has g q' ∧ q' ≠ q)
    (hgood' : Good c g (s.fred g) b) : Inv c (s.setPc w a) := by
  have hne : f ≠ g := by
    rintro rfl
    rcases hg with hno | ⟨q', -, hq', hne⟩
    · exact hno q hf
    · exact hne (hi.freds.one f q' q hq' hf)
  refine hi.setPc hhalt hfits (fun h r hr => ?_) (fun h r r' hr hr' => ?_) fun h r hr => ?_
  · rcases ha h r hr with ⟨rfl, -⟩ | ⟨rfl, -⟩
    · exact .inr ⟨q, hq, hf⟩
    · exact hg.imp_right fun ⟨q', hq', hg', _⟩ => ⟨q', hq', hg'⟩
  · rcases ha h r hr with ⟨rfl, rfl⟩ | ⟨rfl, rfl⟩
    · rcases ha _ _ hr' with ⟨-, rfl⟩ | ⟨he, -⟩
      · rfl
      · exact absurd he hne
    · rcases ha _ _ hr' with ⟨he, -⟩ | ⟨-, rfl⟩
      · exact absurd he.symm hne
      · rfl
  · rcases ha h r hr with ⟨rfl, rfl⟩ | ⟨rfl, rfl⟩
    · exact hgood
    · exact hgood'

end Worker

/-! ### A thread goes on -/

section Thread
variable [DecidableEq W] [DecidableEq X] {a : Add W G}

theorem has_setAdding (h : (s.setAdding t a).Has f p) :
    s.AtAdd t a f p ∨ s.Has f p ∧ ¬ p.thread = some t := by
  rcases h with hv | ⟨u, hu⟩ | h
  · refine .inr ⟨.inl hv, fun ht => ?_⟩
    obtain ⟨v, hv⟩ := hv
    have hv := Place.thread_of_worker (State.AtPc.worker hv)
    rw [ht] at hv
    cases hv
  · change s.AtAdd u (Function.update s.adding t a u) f p at hu
    rcases eq_or_ne u t with rfl | hne
    · rw [Function.update_self] at hu
      exact .inl hu
    · rw [Function.update_of_ne hne] at hu
      refine .inr ⟨.inr (.inl ⟨u, hu⟩), ?_⟩
      rw [hu.thread, Option.some.injEq]
      exact hne
  · refine .inr ⟨.inr (.inr h), fun ht => ?_⟩
    have h : s.Stored f p := h
    rw [h.nobody.2] at ht
    cases ht

theorem hasProc_setAdding {w : W} {q : HaltPlace W X S} (hproc : a.proc = (s.adding t).proc) :
    (s.setAdding t a).HasProc w q ↔ s.HasProc w q := by
  cases q with
  | waiting x => exact Iff.rfl
  | posted => exact Iff.rfl
  | waking u =>
    show (Function.update s.adding t a u).proc = some w ↔ (s.adding u).proc = some w
    rw [Threads.same_at (f := Add.proc) hproc]

/-- A thread, about to wake nobody else, goes on with at most one fibre, its own or from nowhere. -/
theorem Inv.setAdding (hi : Inv c s) (hproc : a.proc = (s.adding t).proc)
    (ha : ∀ h r, s.AtAdd t a h r → h = f ∧ r = p)
    (hf : Nowhere s.Has f ∨ ∃ q, q.thread = some t ∧ s.Has f q)
    (hgood : Good c f (s.fred f) p) : Inv c (s.setAdding t a) := by
  refine { hi with
    freds := hi.freds.refill (fun f p => has_setAdding) ?_ ?_ ?_ fun _ _ _ _ hg => hg
    procs := hi.procs.mono (fun w q => (hasProc_setAdding hproc).mp) fun _ _ _ hg => hg }
  · intro h r r' hr hr'
    obtain ⟨rfl, -⟩ := ha h r hr
    rcases hf with hno | ⟨q, hq, hf⟩
    · exact absurd hr' (hno r')
    · rw [hi.freds.one h r' q hr' hf]
      exact hq
  · intro h r r' hr hr'
    rw [(ha h r hr).2, (ha h r' hr').2]
  · intro h r hr
    obtain ⟨rfl, rfl⟩ := ha h r hr
    exact hgood

/-- A thread gives its fibre away. -/
theorem Inv.release (hi : Inv c s) (hq : q.thread = some t) (hf : s.Has f q)
    (hproc : (s.adding t).proc = none) :
    Inv c (s.setAdding t .done) ∧ Nowhere (s.setAdding t .done).Has f := by
  have hnone : ∀ h r, ¬ s.AtAdd t .done h r := fun h r hr => by cases hr
  refine ⟨hi.setAdding (f := f) (p := q) hproc.symm (fun h r hr => absurd hr (hnone h r))
    (.inr ⟨q, hq, hf⟩) (hi.freds.good f q hf), ?_⟩
  refine nowhere_of_refill (fun p => has_setAdding) (fun p hp => ?_) (hnone f)
  rw [hi.freds.one f p q hp hf]
  exact hq

end Thread

/-! ### What is known of a fibre changes -/

theorem Inv.setFred [DecidableEq W] [DecidableEq G] {r : FredState W S} (hi : Inv c s) (hok : r.Ok c f)
    (hgood : ∀ p, s.Has f p → Good c f r p) : Inv c (s.setFred f r) := by
  refine { hi with
    freds := hi.freds.mono (fun _ _ => id) fun h p hp hg => ?_
    fred := (Function.forall_update_iff s.fred fun f r => r.Ok c f).mpr ⟨hok, fun f _ => hi.fred f⟩ }
  show Good c h (Function.update s.fred f r h) p
  rcases eq_or_ne h f with rfl | hne
  · rw [Function.update_self]
    exact hgood p hp
  · rw [Function.update_of_ne hne]
    exact hg

/-! ### Ready queues -/

section Ready
variable [DecidableEq W] {r : Priority}

theorem has_setReady {l : List (Fibre W G)} (h : (s.setReady w r l).Has f p) :
    s.Has f p ∧ p ≠ .ready w r ∨ p = .ready w r ∧ f ∈ l := by
  rcases h.same (s := s) rfl rfl rfl with ⟨h, hp⟩ | h
  · refine .inl ⟨h, ?_⟩
    rintro rfl
    exact hp ⟨rfl, rfl⟩
  · cases p with
    | ready v r' =>
      have hin : f ∈ Function.update s.readyQueue w (Function.update (s.readyQueue w) r l) v r' := h
      rw [Scheduler.ready_update] at hin
      split at hin
      case isTrue heq =>
        obtain ⟨rfl, rfl⟩ := heq
        exact .inr ⟨rfl, hin⟩
      case isFalse hne =>
        refine .inl ⟨.inr (.inr hin), fun he => ?_⟩
        cases he
        exact hne ⟨rfl, rfl⟩
    | posted _ | waiting _ => exact .inl ⟨.inr (.inr h), nofun⟩
    | runs _ | leaves _ _ | next _ _ | taking _ | reading _ | adding _ _ | waking _ _ | written _ _ =>
      cases h

theorem nodup_setReady {l : List (Fibre W G)} (hi : Inv c s) (hl : l.Nodup) (v : W) (r' : Priority) :
    ((s.setReady w r l).readyQueue v r').Nodup := by
  show (Function.update s.readyQueue w (Function.update (s.readyQueue w) r l) v r').Nodup
  rw [Scheduler.ready_update]
  split
  · exact hl
  · exact hi.readyNodup v r'

/-- The first fibre of a ready queue is taken out. -/
theorem Inv.takeReady {rest : List (Fibre W G)} (hi : Inv c s) (hq : s.readyQueue w r = g :: rest) :
    Inv c (s.setReady w r rest) ∧ Nowhere (s.setReady w r rest).Has g := by
  have hnodup := hi.readyNodup w r
  rw [hq] at hnodup
  obtain ⟨hnot, hrest⟩ := List.nodup_cons.mp hnodup
  have hsub : ∀ f p, (s.setReady w r rest).Has f p → s.Has f p := by
    intro f p h
    rcases has_setReady h with ⟨h, -⟩ | ⟨rfl, hin⟩
    · exact h
    · exact State.has_ready.mpr (by rw [hq]; exact List.mem_cons_of_mem g hin)
  refine ⟨{ hi with
    freds := hi.freds.mono hsub fun _ _ _ hg => hg
    readyNodup := nodup_setReady hi hrest }, fun p hp => ?_⟩
  have hg : s.Has g (.ready w r) := State.has_ready.mpr (by rw [hq]; exact List.mem_cons_self ..)
  rcases has_setReady hp with ⟨hp, hne⟩ | ⟨-, hin⟩
  · exact hne (hi.freds.one g p _ hp hg)
  · exact hnot hin

/-- A fibre from nowhere is put into the ready queue of its processor. -/
theorem Inv.putReady (hi : Inv c s) (hf : Nowhere s.Has f)
    (hgood : Good c f (s.fred f) (.ready (X := X) w r)) :
    Inv c (s.setReady w r (s.readyQueue w r ++ [f])) := by
  have hnot : f ∉ s.readyQueue w r := fun h => hf _ (State.has_ready.mpr h)
  refine { hi with
    freds := hi.freds.enter hf (fun g p h => ?_) hgood
    readyNodup := nodup_setReady hi (by
      rw [← List.concat_eq_append]
      exact (hi.readyNodup w r).concat hnot) }
  rcases has_setReady h with ⟨h, -⟩ | ⟨rfl, hin⟩
  · exact .inr h
  · rcases List.mem_append.mp hin with hin | hin
    · exact .inr (State.has_ready.mpr hin)
    · exact .inl ⟨List.mem_singleton.mp hin, rfl⟩

end Ready

/-! ### Waiting fibres -/

section Waiting
variable [DecidableEq S] {x : S} {m : IdleManager W G}

theorem has_setIdleManager (h : (s.setIdleManager x m).Has f p) :
    s.Has f p ∧ p ≠ .waiting x ∨ p = .waiting x ∧ f ∈ m.waitingFreds := by
  rcases h.same (s := s) rfl rfl rfl with ⟨h, hp⟩ | h
  · refine .inl ⟨h, ?_⟩
    rintro rfl
    exact hp ⟨rfl, rfl⟩
  · cases p with
    | waiting y =>
      have h : f ∈ (Function.update s.idleManager x m y).waitingFreds := h
      rcases eq_or_ne y x with rfl | hne
      · rw [Function.update_self] at h
        exact .inr ⟨rfl, h⟩
      · rw [Function.update_of_ne hne] at h
        exact .inl ⟨.inr (.inr h), fun he => hne (by cases he; rfl)⟩
    | posted _ | ready _ _ => exact .inl ⟨.inr (.inr h), nofun⟩
    | runs _ | leaves _ _ | next _ _ | taking _ | reading _ | adding _ _ | waking _ _ | written _ _ =>
      cases h

/-- The waiting workers of the manager stay. -/
theorem Inv.setIdleManager (hi : Inv c s) (hprocs : m.waitingProcs = (s.idleManager x).waitingProcs)
    (hnodup : m.waitingFreds.Nodup)
    (hfreds : Placed (s.setIdleManager x m).Has fun f p => Good c f (s.fred f) p) :
    Inv c (s.setIdleManager x m) := by
  have hsame : ∀ y, ((s.setIdleManager x m).idleManager y).waitingProcs =
      (s.idleManager y).waitingProcs := by
    exact Threads.same_at (f := IdleManager.waitingProcs) hprocs
  refine { hi with
    freds := hfreds
    procs := hi.procs.mono (fun w q h => ?_) fun _ _ _ hg => hg
    fredsNodup := ?_
    procsNodup := fun y => by rw [hsame]; exact hi.procsNodup y
    halting := fun w hw => by rw [hsame]; exact hi.halting w hw }
  · cases q with
    | waiting y =>
      have h : w ∈ ((s.setIdleManager x m).idleManager y).waitingProcs := h
      rw [hsame] at h
      exact h
    | waking _ | posted => exact h
  · exact (Function.forall_update_iff s.idleManager fun _ m => m.waitingFreds.Nodup).mpr
      ⟨hnodup, fun y _ => hi.fredsNodup y⟩

theorem Inv.sameFreds (hi : Inv c s) (hfreds : m.waitingFreds = (s.idleManager x).waitingFreds) :
    Placed (s.setIdleManager x m).Has fun f p => Good c f (s.fred f) p := by
  refine hi.freds.mono (fun f p h => ?_) fun _ _ _ hg => hg
  rcases has_setIdleManager h with ⟨h, -⟩ | ⟨rfl, hin⟩
  · exact h
  · rw [hfreds] at hin
    exact State.has_waiting.mpr hin

/-- The counter changes. -/
theorem Inv.count (hi : Inv c s) (n : ℤ) :
    Inv c (s.setIdleManager x { s.idleManager x with fredCounter := n }) :=
  hi.setIdleManager rfl (hi.fredsNodup x) (hi.sameFreds rfl)

/-- The first waiting fibre is taken out. -/
theorem Inv.takeWaiting {rest : List (Fibre W G)} (hi : Inv c s)
    (hq : (s.idleManager x).waitingFreds = g :: rest) :
    Inv c (s.setIdleManager x { s.idleManager x with waitingFreds := rest }) ∧
      Nowhere (s.setIdleManager x { s.idleManager x with waitingFreds := rest }).Has g := by
  have hnodup := hi.fredsNodup x
  rw [hq] at hnodup
  obtain ⟨hnot, hrest⟩ := List.nodup_cons.mp hnodup
  refine ⟨hi.setIdleManager rfl hrest (hi.freds.mono (fun f p h => ?_) fun _ _ _ hg => hg),
    fun p hp => ?_⟩
  · rcases has_setIdleManager h with ⟨h, -⟩ | ⟨rfl, hin⟩
    · exact h
    · exact State.has_waiting.mpr (by rw [hq]; exact List.mem_cons_of_mem g hin)
  · have hg : s.Has g (.waiting x) := State.has_waiting.mpr (by rw [hq]; exact List.mem_cons_self ..)
    rcases has_setIdleManager hp with ⟨hp, hne⟩ | ⟨-, hin⟩
    · exact hne (hi.freds.one g p _ hp hg)
    · exact hnot hin

/-- A fibre from nowhere is put among the waiting ones. -/
theorem Inv.putWaiting (hi : Inv c s) (hf : Nowhere s.Has f)
    (hgood : Good c f (s.fred f) (.waiting (W := W) (X := X) x)) :
    Inv c (s.setIdleManager x { s.idleManager x with
      waitingFreds := (s.idleManager x).waitingFreds ++ [f] }) := by
  have hnot : f ∉ (s.idleManager x).waitingFreds := fun h => hf _ (State.has_waiting.mpr h)
  refine hi.setIdleManager rfl ?_ (hi.freds.enter hf (fun g p h => ?_) hgood)
  · rw [← List.concat_eq_append]
    exact (hi.fredsNodup x).concat hnot
  · rcases has_setIdleManager h with ⟨h, -⟩ | ⟨rfl, hin⟩
    · exact .inr h
    · rcases List.mem_append.mp hin with hin | hin
      · exact .inr (State.has_waiting.mpr hin)
      · exact .inl ⟨List.mem_singleton.mp hin, rfl⟩

end Waiting

/-! ### Halted workers -/

section Halted
variable [DecidableEq W] [DecidableEq S] {x : S} {m : IdleManager W G} {v : W} {l : List W}
  {o : HaltPlace W X S}

omit [DecidableEq W] in
theorem hasProc_setIdleManager (h : (s.setIdleManager x m).HasProc v o) :
    s.HasProc v o ∧ o ≠ .waiting x ∨ o = .waiting x ∧ v ∈ m.waitingProcs := by
  cases o with
  | waiting y =>
    have hin : v ∈ (Function.update s.idleManager x m y).waitingProcs := h
    rcases eq_or_ne y x with rfl | hne
    · rw [Function.update_self] at hin
      exact .inr ⟨rfl, hin⟩
    · rw [Function.update_of_ne hne] at hin
      exact .inl ⟨hin, fun he => hne (by cases he; rfl)⟩
  | waking _ => exact .inl ⟨h, nofun⟩
  | posted => exact .inl ⟨h, nofun⟩

omit [DecidableEq W] in
theorem nodup_fredsOf (hi : Inv c s) (hm : m.waitingFreds = (s.idleManager x).waitingFreds) (y : S) :
    ((s.setIdleManager x m).idleManager y).waitingFreds.Nodup := by
  refine (Function.forall_update_iff s.idleManager fun _ m => m.waitingFreds.Nodup).mpr
    ⟨?_, fun y _ => hi.fredsNodup y⟩ y
  rw [hm]
  exact hi.fredsNodup x

/-- `waitingProcs.push_front` of a worker that is about to halt. -/
theorem Inv.putProc (hi : Inv c s) (hpc : s.pc w = .halt) (hno : Nowhere s.HasProc w) :
    Inv c { s.setIdleManager (c.scheduler w) { s.idleManager (c.scheduler w) with
        waitingProcs := w :: (s.idleManager (c.scheduler w)).waitingProcs } with
      halting := Function.update s.halting w true } := by
  refine { hi with
    freds := hi.sameFreds rfl
    procs := hi.procs.enter (f := w) (b := .waiting (c.scheduler w)) hno (fun v o h => ?_)
      ⟨hpc, fun x hx => by cases hx; rfl⟩
    fredsNodup := nodup_fredsOf hi rfl
    procsNodup := (Function.forall_update_iff s.idleManager fun _ m => m.waitingProcs.Nodup).mpr
      ⟨List.nodup_cons.mpr ⟨hno (.waiting (c.scheduler w)), hi.procsNodup _⟩,
        fun y _ => hi.procsNodup y⟩
    halting := fun v hv => ?_ }
  · rcases hasProc_setIdleManager h with ⟨h, -⟩ | ⟨rfl, hin⟩
    · exact .inr h
    · exact (List.mem_cons.mp hin).imp (fun he => ⟨he, rfl⟩) id
  · have hv : Function.update s.halting w true v = true := hv
    show v ∈ (Function.update s.idleManager _ _ (c.scheduler v)).waitingProcs
    rcases eq_or_ne v w with rfl | hne
    · rw [Function.update_self]
      exact List.mem_cons_self ..
    · rw [Function.update_of_ne hne] at hv
      have hin := hi.halting v hv
      rcases eq_or_ne (c.scheduler v) (c.scheduler w) with he | hx
      · rw [he, Function.update_self]
        rw [he] at hin
        exact List.mem_cons_of_mem w hin
      · rw [Function.update_of_ne hx]
        exact hin

/-- A halted worker is taken from the waiting ones. -/
theorem Inv.takeProc (hi : Inv c s) (hin : v ∈ (s.idleManager x).waitingProcs) (hl : l.Nodup)
    (hmem : ∀ u, u ∈ l ↔ u ∈ (s.idleManager x).waitingProcs ∧ u ≠ v) :
    Inv c { s.setIdleManager x { s.idleManager x with waitingProcs := l } with
      halting := Function.update s.halting v false } ∧
    Nowhere (s.setIdleManager x { s.idleManager x with waitingProcs := l }).HasProc v := by
  have hsub : ∀ u o, (s.setIdleManager x { s.idleManager x with waitingProcs := l }).HasProc u o →
      s.HasProc u o := by
    intro u o h
    rcases hasProc_setIdleManager h with ⟨h, -⟩ | ⟨rfl, hu⟩
    · exact h
    · exact ((hmem u).mp hu).1
  refine ⟨{ hi with
    freds := hi.sameFreds rfl
    procs := hi.procs.mono hsub fun _ _ _ hg => hg
    fredsNodup := nodup_fredsOf hi rfl
    procsNodup := (Function.forall_update_iff s.idleManager fun _ m => m.waitingProcs.Nodup).mpr
      ⟨hl, fun y _ => hi.procsNodup y⟩
    halting := fun u hu => ?_ }, fun o ho => ?_⟩
  · have hu : Function.update s.halting v false u = true := hu
    show u ∈ (Function.update s.idleManager _ _ (c.scheduler u)).waitingProcs
    rcases eq_or_ne u v with rfl | hne
    · rw [Function.update_self] at hu
      cases hu
    · rw [Function.update_of_ne hne] at hu
      have hold := hi.halting u hu
      rcases eq_or_ne (c.scheduler u) x with rfl | hx
      · rw [Function.update_self]
        exact (hmem u).mpr ⟨hold, hne⟩
      · rw [Function.update_of_ne hx]
        exact hold
  · rcases hasProc_setIdleManager ho with ⟨ho, hne⟩ | ⟨-, ho⟩
    · exact hne (hi.procs.one v o (.waiting x) ho hin)
    · exact ((hmem v).mp ho).2 rfl

variable [DecidableEq X]

omit [DecidableEq S] in
/-- The waker of a halted worker has a fibre for it. -/
theorem Inv.setWake (hi : Inv c s) (hno : Nowhere s.HasProc v)
    (hpc : s.pc v = .halt) (hq : q.thread = some t) (hf : s.Has f q)
    (hfits : c.scheduler (s.fred f).processor = c.scheduler v) :
    Inv c (s.setAdding t (.wake f v)) := by
  have ha : ∀ h r, s.AtAdd t (.wake f v) h r → h = f ∧ r = .waking t v := by
    intro h r hr
    exact Prod.mk.inj (List.mem_singleton.mp hr)
  have hold := hi.freds.good f q hf
  refine { hi with
    freds := hi.freds.refill (fun f p => has_setAdding) ?_ ?_ ?_ fun _ _ _ _ hg => hg
    procs := hi.procs.enter (f := v) (b := .waking t) hno (fun u o ho => ?_) ⟨hpc, nofun⟩ }
  · intro h r r' hr hr'
    obtain ⟨rfl, -⟩ := ha h r hr
    rw [hi.freds.one h r' q hr' hf]
    exact hq
  · intro h r r' hr hr'
    rw [(ha h r hr).2, (ha h r' hr').2]
  · intro h r hr
    obtain ⟨rfl, rfl⟩ := ha h r hr
    refine ⟨hold.awake, hold.started, fun w hw => ?_, hfits⟩
    have hworker := hold.idle w hw
    rw [Place.thread_of_worker hworker] at hq
    cases hq
  · cases o with
    | waiting _ | posted => exact .inr ho
    | waking u' =>
      have ho : (Function.update s.adding t (.wake f v) u').proc = some u := ho
      rcases eq_or_ne u' t with rfl | hne
      · rw [Function.update_self] at ho
        exact .inl ⟨(Option.some.inj ho).symm, rfl⟩
      · rw [Function.update_of_ne hne] at ho
        exact .inr ho

omit [DecidableEq S] [DecidableEq X] in
/-- A slot that nobody reads may be written. -/
theorem Inv.setSlot (hi : Inv c s) (hpc : s.pc v ≠ .handover) (hadd : ∀ u, s.adding u ≠ .haltSemV v)
    (hsem : s.haltSem v = 0) (o : Option (Fibre W G)) :
    Inv c { s with handoverFred := Function.update s.handoverFred v o } := by
  have hslot : ∀ u, u ≠ v → Function.update s.handoverFred v o u = s.handoverFred u :=
    fun u hne => Function.update_of_ne hne ..
  refine { hi with
    freds := hi.freds.mono (fun g p h => ?_) fun _ _ _ hg => hg
    procs := hi.procs.mono (fun u o h => ?_) fun _ _ _ hg => hg }
  · rcases h with ⟨w, hw⟩ | ⟨u, hu⟩ | h
    · refine .inl ⟨w, ?_⟩
      change (g, p) ∈ (s.pc w).places w (Function.update s.handoverFred v o w) at hw
      show (g, p) ∈ (s.pc w).places w (s.handoverFred w)
      rcases eq_or_ne w v with rfl | hne
      · cases hc : s.pc w with
        | handover => exact absurd hc hpc
        | exec _ | token _ _ | search _ _ _ | taken _ _ _ | chosen _ _ _ | post _ _ _ | getReadyFred
        | block | halt =>
          rw [hc] at hw
          exact hw
      · rw [hslot w hne] at hw
        exact hw
    · refine .inr (.inl ⟨u, ?_⟩)
      change (g, p) ∈ (s.adding u).places u (Function.update s.handoverFred v o) at hu
      show (g, p) ∈ (s.adding u).places u s.handoverFred
      cases hau : s.adding u with
      | haltSemV v' =>
        have hv' : v' ≠ v := by
          rintro rfl
          exact hadd u hau
        rw [hau, Add.places, hslot v' hv'] at hu
        exact hu
      | done | reading _ _ | addReadyFred _ _ | enqueueFred _ _ | unblock _ _ | wake _ _ =>
        rw [hau] at hu
        exact hu
    · refine .inr (.inr ?_)
      cases p with
      | posted u =>
        obtain ⟨hpos, hg⟩ := h
        have hne : u ≠ v := by
          rintro rfl
          have hpos : 0 < s.haltSem u := hpos
          omega
        exact ⟨hpos, (hslot u hne).symm.trans hg⟩
      | ready _ _ | waiting _ => exact h
      | runs _ | leaves _ _ | next _ _ | taking _ | reading _ | adding _ _ | waking _ _
      | written _ _ => cases h
  · cases o with
    | waiting _ | waking _ | posted => exact h

omit [DecidableEq S] in
/-- `wake`, up to its `haltSem.V`: nobody else looks at the slot of a worker that is being woken. -/
theorem Inv.write (hi : Inv c s) (hadd : s.adding t = .wake f v) :
    Inv c { s.setAdding t (.haltSemV v) with
      handoverFred := Function.update s.handoverFred v (some f) } := by
  have hproc : s.HasProc v (.waking t) := by
    show (s.adding t).proc = some v
    rw [hadd]
    rfl
  have hhas : s.Has f (.waking t v) := by
    refine .inr (.inl ⟨t, ?_⟩)
    rw [hadd]
    exact List.mem_singleton_self _
  have hgood := hi.freds.good f _ hhas
  have hslot : Inv c { s with handoverFred := Function.update s.handoverFred v (some f) } := by
    refine hi.setSlot ?_ (fun u hu => ?_) ?_ _
    · rw [(hi.procs.good v _ hproc).1]
      nofun
    · have hother : s.HasProc v (.waking u) := by
        show (s.adding u).proc = some v
        rw [hu]
        rfl
      obtain rfl := HaltPlace.waking.inj (hi.procs.one v _ _ hother hproc)
      rw [hadd] at hu
      cases hu
    · by_contra hpos
      cases hi.procs.one v .posted _ (Nat.pos_of_ne_zero hpos) hproc
  refine hslot.setAdding (f := f) (p := .written t v) (by rw [hadd]; rfl) (fun h r hr => ?_)
    (.inr ⟨.waking t v, rfl, ?_⟩) ⟨hgood.awake, hgood.started, fun w hw => (nomatch hgood.idle w hw),
      hgood.fits⟩
  · simp only [State.AtAdd, Add.places, Function.update_self, Option.map_some, Option.mem_toList,
      Option.some.injEq, Prod.mk.injEq] at hr
    exact ⟨hr.1.symm, hr.2.symm⟩
  · refine .inr (.inl ⟨t, ?_⟩)
    show (f, _) ∈ (s.adding t).places t _
    rw [hadd]
    exact List.mem_singleton_self _

omit [DecidableEq S] in
/-- `haltSem.V`. -/
theorem Inv.signal (hi : Inv c s) (hadd : s.adding t = .haltSemV v) :
    Inv c { s.setAdding t .done with
      haltSem := Function.update s.haltSem v (s.haltSem v + 1) } := by
  have hproc : s.HasProc v (.waking t) := by
    show (s.adding t).proc = some v
    rw [hadd]
    rfl
  have hzero : s.haltSem v = 0 := by
    by_contra hpos
    cases hi.procs.one v .posted _ (Nat.pos_of_ne_zero hpos) hproc
  have hsem : ∀ u, u ≠ v → Function.update s.haltSem v (s.haltSem v + 1) u = s.haltSem u :=
    fun u hne => Function.update_of_ne hne ..
  have hwritten : ∀ g, s.handoverFred v = some g → s.Has g (.written t v) := by
    intro g hg
    refine .inr (.inl ⟨t, ?_⟩)
    show (g, _) ∈ (s.adding t).places t _
    simp [hadd, Add.places, hg]
  refine { hi with
    freds := hi.freds.refill (D := fun p => p.thread = some t)
      (N := fun g p => s.handoverFred v = some g ∧ p = .posted v) (fun g p h => ?_) ?_ ?_ ?_
      fun _ _ _ _ hg => hg
    procs := hi.procs.refill (D := fun o => o = .waking t)
      (N := fun u o => u = v ∧ o = .posted) (fun u o h => ?_) ?_ ?_ ?_ fun _ _ _ _ hg => hg
    haltSem := fun u => ?_ }
  · rcases has_setAdding (a := .done) (s := { s with
      haltSem := Function.update s.haltSem v (s.haltSem v + 1) }) h with hnew | ⟨h, hne⟩
    · cases hnew
    · rcases h.same (s := s) rfl rfl rfl with ⟨h, -⟩ | h
      · exact .inr ⟨h, hne⟩
      · cases p with
        | posted u =>
          obtain ⟨hpos, hg⟩ := h
          rcases eq_or_ne u v with rfl | huv
          · exact .inl ⟨hg, rfl⟩
          · refine .inr ⟨.inr (.inr ⟨?_, hg⟩), hne⟩
            rw [← hsem u huv]
            exact hpos
        | ready _ _ | waiting _ => exact .inr ⟨.inr (.inr h), hne⟩
        | runs _ | leaves _ _ | next _ _ | taking _ | reading _ | adding _ _ | waking _ _
        | written _ _ => cases h
  · rintro g p r ⟨hg, -⟩ hr
    rw [hi.freds.one g r _ hr (hwritten g hg)]
    rfl
  · rintro g p r ⟨-, rfl⟩ ⟨-, rfl⟩
    rfl
  · rintro g p ⟨hg, rfl⟩
    have hgood := hi.freds.good g _ (hwritten g hg)
    exact ⟨hgood.awake, hgood.started, fun w hw => (nomatch hgood.idle w hw), hgood.fits⟩
  · cases o with
    | waiting x => exact .inr ⟨h, nofun⟩
    | waking u' =>
      have h : (Function.update s.adding t .done u').proc = some u := h
      rcases eq_or_ne u' t with rfl | hne
      · rw [Function.update_self] at h
        cases h
      · rw [Function.update_of_ne hne] at h
        exact .inr ⟨h, fun he => hne (HaltPlace.waking.inj he)⟩
    | posted =>
      have h : 0 < Function.update s.haltSem v (s.haltSem v + 1) u := h
      rcases eq_or_ne u v with rfl | hne
      · exact .inl ⟨rfl, rfl⟩
      · rw [hsem u hne] at h
        exact .inr ⟨h, nofun⟩
  · rintro u o o' ⟨rfl, -⟩ ho'
    exact hi.procs.one u o' _ ho' hproc
  · rintro u o o' ⟨-, rfl⟩ ⟨-, rfl⟩
    rfl
  · rintro u o ⟨rfl, rfl⟩
    exact ⟨(hi.procs.good u _ hproc).1, nofun⟩
  · show Function.update s.haltSem v (s.haltSem v + 1) u ≤ 1
    rcases eq_or_ne u v with rfl | hne
    · have hone : Function.update s.haltSem u (s.haltSem u + 1) u = 1 := by
        rw [Function.update_self, hzero]
      exact Nat.le_of_eq hone
    · rw [hsem u hne]
      exact hi.haltSem u

omit [DecidableEq S] [DecidableEq X] in
/-- `haltSem.P`. -/
theorem Inv.wakeUp (hi : Inv c s) (hpc : s.pc w = .halt) (hpos : 0 < s.haltSem w) :
    Inv c { s.setPc w .handover with
      haltSem := Function.update s.haltSem w (s.haltSem w - 1) } := by
  have hone : s.haltSem w = 1 := by
    have := hi.haltSem w
    omega
  have hsem : ∀ u, u ≠ w → Function.update s.haltSem w (s.haltSem w - 1) u = s.haltSem u :=
    fun u hne => Function.update_of_ne hne ..
  have hidle : s.Has (.idle w) (.leaves w true) := by
    refine .inl ⟨w, ?_⟩
    rw [hpc]
    exact List.mem_singleton_self _
  have hat : ∀ g p, s.AtPc w .handover g p →
      (g = .idle w ∧ p = .leaves w true) ∨ s.Has g (.posted w) ∧ p = .taking w := by
    intro g p h
    simp only [State.AtPc, Pc.places, List.mem_cons, Prod.mk.injEq, Option.mem_toList,
      Option.map_eq_some_iff] at h
    rcases h with h | ⟨g', hg, rfl, rfl⟩
    · exact .inl h
    · exact .inr ⟨.inr (.inr ⟨hpos, hg⟩), rfl⟩
  have hnot : ∀ g, s.Has g (.posted w) → g ≠ .idle w := by
    rintro g hg rfl
    cases hi.freds.one _ _ _ hg hidle
  have hgone : ∀ g p, ({ s.setPc w .handover with
      haltSem := Function.update s.haltSem w (s.haltSem w - 1) } : State W X G S).Has g p →
      s.AtPc w .handover g p ∨ s.Has g p ∧ ¬ (p.worker = some w ∨ p = .posted w) := by
    intro g p h
    rcases has_setPc (a := .handover) (s := { s with
      haltSem := Function.update s.haltSem w (s.haltSem w - 1) }) h with hnew | ⟨h, hne⟩
    · exact .inl hnew
    · right
      rcases h.same (s := s) rfl rfl rfl with ⟨h, hp⟩ | h
      · refine ⟨h, fun hpart => hpart.elim hne ?_⟩
        rintro rfl
        exact hp ⟨rfl, rfl⟩
      · cases p with
        | posted u =>
          obtain ⟨hu, hg⟩ := h
          have hu : 0 < Function.update s.haltSem w (s.haltSem w - 1) u := hu
          have huw : u ≠ w := by
            rintro rfl
            rw [Function.update_self] at hu
            omega
          rw [hsem u huw] at hu
          exact ⟨.inr (.inr ⟨hu, hg⟩), fun hp => hp.elim hne fun he => huw (by cases he; rfl)⟩
        | ready _ _ | waiting _ => exact ⟨.inr (.inr h), fun hp => hp.elim hne nofun⟩
        | runs _ | leaves _ _ | next _ _ | taking _ | reading _ | adding _ _ | waking _ _
        | written _ _ => cases h
  -- the one place of a halted worker was its semaphore
  have hprocs : ∀ u o, ({ s.setPc w .handover with
      haltSem := Function.update s.haltSem w (s.haltSem w - 1) } : State W X G S).HasProc u o →
      s.HasProc u o ∧ u ≠ w := by
    intro u o h
    cases o with
    | waiting x =>
      have hin : s.HasProc u (.waiting x) := h
      refine ⟨hin, ?_⟩
      rintro rfl
      cases hi.procs.one u _ .posted hin hpos
    | waking t =>
      have hin : s.HasProc u (.waking t) := h
      refine ⟨hin, ?_⟩
      rintro rfl
      cases hi.procs.one u _ .posted hin hpos
    | posted =>
      have h : 0 < Function.update s.haltSem w (s.haltSem w - 1) u := h
      have hne : u ≠ w := by
        rintro rfl
        rw [Function.update_self] at h
        omega
      rw [hsem u hne] at h
      exact ⟨h, hne⟩
  refine { hi with
    freds := hi.freds.refill hgone ?_ ?_ ?_ fun _ _ _ _ hg => hg
    procs := ⟨fun u o o' ho ho' => hi.procs.one u o o' (hprocs u o ho).1 (hprocs u o' ho').1,
      fun u o ho => ?_⟩
    haltSem := fun u => ?_
    pc := (Function.forall_update_iff s.pc fun w a => a.Fits w).mpr ⟨trivial, fun v _ => hi.pc v⟩ }
  · intro g p r hp hr
    rcases hat g p hp with ⟨rfl, -⟩ | ⟨hg, -⟩
    · rw [hi.freds.one _ r _ hr hidle]
      exact .inl rfl
    · exact .inr (hi.freds.one g r _ hr hg)
  · intro g p r hp hr
    rcases hat g p hp with ⟨rfl, rfl⟩ | ⟨hg, rfl⟩
    · rcases hat _ r hr with ⟨-, rfl⟩ | ⟨hg, -⟩
      · rfl
      · exact absurd rfl (hnot _ hg)
    · rcases hat _ r hr with ⟨rfl, -⟩ | ⟨-, rfl⟩
      · exact absurd rfl (hnot _ hg)
      · rfl
  · intro g p hp
    rcases hat g p hp with ⟨rfl, rfl⟩ | ⟨hg, rfl⟩
    · exact hi.freds.good _ _ hidle
    · have hgood := hi.freds.good g _ hg
      exact ⟨hgood.awake, hgood.started, fun v hv => (nomatch hgood.idle v hv), hgood.fits⟩
  · obtain ⟨hu, hne⟩ := hprocs u o ho
    refine ⟨?_, (hi.procs.good u o hu).2⟩
    show Function.update s.pc w .handover u = .halt
    rw [Function.update_of_ne hne]
    exact (hi.procs.good u o hu).1
  · show Function.update s.haltSem w (s.haltSem w - 1) u ≤ 1
    rcases eq_or_ne u w with rfl | hne
    · rw [Function.update_self]
      omega
    · rw [hsem u hne]
      exact hi.haltSem u

end Halted

end Libfibre.Isolation
