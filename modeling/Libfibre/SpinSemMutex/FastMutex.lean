import Libfibre.Schemes.Transition
import Libfibre.Schemes.Tally
import Mathlib.Tactic.Basic

/-! The default `FastMutex` (`BlockingSync.h`, `Benaphore.h`): `SpinSemMutex` over a `FredBenaphore`
    with `Binary = true`, whose inner semaphore is a `LimitedSemaphore0`. Each compare-and-swap or
    store of `owner`, each atomic operation on the benaphore counter, each push and pop of the queue
    and each resumption is one step.

        spinning ──▶ benP ──▶ pushing ──▶ queued ──▶ popped
           │ ▲        │ open                           │ resumption
           │ └──────┐ ▼                                │
           ▼        └ locking ◀────────────────────────┘
          own ◀────────┘
           │ release
           ▼
          benV ──(counter was negative)──▶ popping ──▶ waking ──▶ out

    `release` gives up `owner` before it posts the benaphore, and the fibre it wakes has to compete
    for `owner` like any other. What makes up for that is that somebody is always about to do
    something while the counter is not positive (`Active`). -/

namespace Libfibre.FastMutex
open Transition Tally

/-! ### The code -/

/-- Where a fibre is. -/
inductive Pc (F : Type) where
  | out
  | trying             -- in `tryAcquire`, before `tryLock`
  | spinning           -- in `Spin`, before `tryLock`
  | benP               -- before `ben.P`
  | pushing            -- `ben.P` has failed: before `queue.push`
  | queued
  | popped
  | locking            -- past `sem.P`, before `tryLock`
  | own
  | benV (c : ℤ)       -- in `release`, before the compare-and-swap of `ben.V`
  | popping            -- `ben.V` has failed: before `queue.pop`
  | waking (f : F)     -- before `next->resume`
  deriving DecidableEq

/-- `owner`, the words of the benaphore below, and where each fibre is. -/
structure State (F : Type) where
  owner : Option F
  counter : ℤ
  queue : List F
  pc : F → Pc F

/-- A call begins, or goes on by one step. -/
inductive Action (F : Type) where
  | acquire (f : F)
  | tryAcquire (f : F)
  | tryLock (f : F) (spin : Bool)   -- `spin`: `Spin` goes on if it fails
  | benP (f : F)
  | push (f : F)
  | release (f : F)
  | benV (f : F)
  | pop (f : F) (seen : Bool)       -- `seen`: the queue shows its first element
  | resume (f : F)

variable {F : Type} [DecidableEq F]

/-- Fibre `f` goes to another place. -/
def State.goto (s : State F) (f : F) (p : Pc F) : State F :=
  { s with pc := Function.update s.pc f p }

/-- `tryLock`, and where the fibre goes if it fails. -/
def tryLock (s : State F) (f : F) (failed : Pc F) : State F :=
  match s.owner with
  | none => State.goto { s with owner := some f } f .own
  | some _ => s.goto f failed

/-- `Benaphore::P`. -/
def benP (s : State F) (f : F) : State F :=
  State.goto { s with counter := s.counter - 1 } f (if 0 < s.counter then .locking else .pushing)

/-- One round of `Benaphore<true>::V`; a failing compare-and-swap loads the counter. -/
def benV (s : State F) (f : F) (c : ℤ) : State F :=
  if s.counter = c then
    State.goto { s with counter := c + 1 } f (if c = 0 then .out else .popping)
  else if s.counter = 1 then s.goto f .out
  else s.goto f (.benV s.counter)

/-- One step. -/
def step (s : State F) : Action F → Option (State F)
  | .acquire f => if s.pc f = .out then some (s.goto f .spinning) else none
  | .tryAcquire f => if s.pc f = .out then some (s.goto f .trying) else none
  | .tryLock f spin =>
    match s.pc f with
    | .trying => some (tryLock s f .out)
    | .spinning => some (tryLock s f (if spin then .spinning else .benP))
    | .locking => some (tryLock s f .benP)
    | _ => none
  | .benP f => if s.pc f = .benP then some (benP s f) else none
  | .push f =>
    if s.pc f = .pushing then some (State.goto { s with queue := s.queue ++ [f] } f .queued)
    else none
  | .release f =>
    if s.pc f = .own then some (State.goto { s with owner := none } f (.benV 0)) else none
  | .benV f =>
    match s.pc f with
    | .benV c => some (benV s f c)
    | _ => none
  | .pop f seen =>
    if s.pc f = .popping then
      match seen, s.queue with
      | true, g :: q => some (State.goto ({ s with queue := q }.goto g .popped) f (.waking g))
      | _, _ => some s
    else none
  | .resume f =>
    match s.pc f with
    | .waking g => some ((s.goto g .locking).goto f .out)
    | _ => none

/-- The constructed mutex. -/
def State.init : State F := ⟨none, 1, [], fun _ => .out⟩

/-- Any number of fibres use the mutex. -/
def system (F : Type) [DecidableEq F] : System (State F) (Action F) := ⟨fun s => s = .init, step⟩

/-! ### What a step does -/

/-- Not holding, waking or owing anything. -/
def Pc.idle : Pc F → Bool
  | .out | .trying | .spinning | .benP => true
  | _ => false

/-- On the way to `tryLock`. -/
def Pc.tries : Pc F → Bool
  | .trying | .spinning | .locking => true
  | _ => false

/-- What the fibre has seen of the counter. -/
def Pc.seen : Pc F → Bool
  | .benV c => decide (c ≤ 0)
  | _ => true

/-- Everything a step can do. -/
inductive Did (s : State F) : State F → Prop
  | moved {f : F} {p : Pc F} : (s.pc f).idle = true → p.idle = true → Did s (s.goto f p)
  | lost {f g : F} : s.pc f = .locking → s.owner = some g → Did s (s.goto f .benP)
  | locked {f : F} : (s.pc f).tries = true → s.owner = none →
      Did s (State.goto { s with owner := some f } f .own)
  | opened {f : F} : s.pc f = .benP → 0 < s.counter →
      Did s (State.goto { s with counter := s.counter - 1 } f .locking)
  | shut {f : F} : s.pc f = .benP → s.counter ≤ 0 →
      Did s (State.goto { s with counter := s.counter - 1 } f .pushing)
  | pushed {f : F} : s.pc f = .pushing →
      Did s (State.goto { s with queue := s.queue ++ [f] } f .queued)
  | released {f : F} : s.pc f = .own → Did s (State.goto { s with owner := none } f (.benV 0))
  | put {f : F} {c : ℤ} : s.pc f = .benV c → s.counter = 0 →
      Did s (State.goto { s with counter := 1 } f .out)
  | owed {f : F} {c : ℤ} : s.pc f = .benV c → s.counter < 0 →
      Did s (State.goto { s with counter := s.counter + 1 } f .popping)
  | full {f : F} {c : ℤ} : s.pc f = .benV c → s.counter = 1 → Did s (s.goto f .out)
  | retried {f : F} {c : ℤ} : s.pc f = .benV c → s.counter ≠ 1 → Did s (s.goto f (.benV s.counter))
  | took {f g : F} {q : List F} : s.pc f = .popping → s.queue = g :: q →
      Did s (State.goto ({ s with queue := q }.goto g .popped) f (.waking g))
  | missed : Did s s
  | resumed {f g : F} : s.pc f = .waking g → Did s ((s.goto g .locking).goto f .out)

theorem did_tryLock {s : State F} {f : F} {p : Pc F} (hpc : (s.pc f).tries = true)
    (hp : p.idle = true) (h : (s.pc f).idle = true ∨ s.pc f = .locking ∧ p = .benP) :
    Did s (tryLock s f p) := by
  cases howner : s.owner with
  | none =>
    have hlock : tryLock s f p = State.goto { s with owner := some f } f .own := by
      rw [tryLock, howner]
    rw [hlock]
    exact .locked hpc howner
  | some g =>
    have hlock : tryLock s f p = s.goto f p := by rw [tryLock, howner]
    rw [hlock]
    rcases h with hidle | ⟨hlocking, rfl⟩
    · exact .moved hidle hp
    · exact .lost hlocking howner

theorem did_benP {s : State F} {f : F} (hpc : s.pc f = .benP) : Did s (benP s f) := by
  rw [benP]
  split_ifs with hopen
  · exact .opened hpc hopen
  · exact .shut hpc (by omega)

theorem did_benV {s : State F} {f : F} {c : ℤ} (hpc : s.pc f = .benV c) (hc : c ≤ 0) :
    Did s (benV s f c) := by
  rw [benV]
  by_cases hcas : s.counter = c
  · rw [if_pos hcas]
    split
    case isTrue hzero =>
      subst hzero
      exact .put hpc hcas
    case isFalse hne =>
      subst hcas
      exact .owed hpc (by omega)
  · rw [if_neg hcas]
    split
    case isTrue hone => exact .full hpc hone
    case isFalse hne => exact .retried hpc hne

/-- INVERSION: every step is one of the listed ones. -/
theorem step_did {s s' : State F} {a : Action F} (hseen : ∀ f, (s.pc f).seen = true)
    (h : step s a = some s') : Did s s' := by
  cases a with
  | acquire f =>
    obtain ⟨hpc, h⟩ := Option.ite_none_right_eq_some.mp h
    cases h
    exact .moved (by rw [hpc]; rfl) rfl
  | tryAcquire f =>
    obtain ⟨hpc, h⟩ := Option.ite_none_right_eq_some.mp h
    cases h
    exact .moved (by rw [hpc]; rfl) rfl
  | tryLock f spin =>
    cases hpc : s.pc f with
    | trying =>
      rw [step, hpc, Option.some.injEq] at h
      subst h
      exact did_tryLock (by rw [hpc]; rfl) rfl (.inl (by rw [hpc]; rfl))
    | spinning =>
      rw [step, hpc, Option.some.injEq] at h
      subst h
      exact did_tryLock (by rw [hpc]; rfl) (by cases spin <;> rfl) (.inl (by rw [hpc]; rfl))
    | locking =>
      rw [step, hpc, Option.some.injEq] at h
      subst h
      exact did_tryLock (by rw [hpc]; rfl) rfl (.inr ⟨hpc, rfl⟩)
    | _ => rw [step, hpc] at h; cases h
  | benP f =>
    obtain ⟨hpc, h⟩ := Option.ite_none_right_eq_some.mp h
    cases h
    exact did_benP hpc
  | push f =>
    obtain ⟨hpc, h⟩ := Option.ite_none_right_eq_some.mp h
    cases h
    exact .pushed hpc
  | release f =>
    obtain ⟨hpc, h⟩ := Option.ite_none_right_eq_some.mp h
    cases h
    exact .released hpc
  | benV f =>
    cases hpc : s.pc f with
    | benV c =>
      rw [step, hpc, Option.some.injEq] at h
      subst h
      have hc := hseen f
      rw [hpc] at hc
      exact did_benV hpc (of_decide_eq_true hc)
    | _ => rw [step, hpc] at h; cases h
  | pop f seen =>
    obtain ⟨hpc, h⟩ := Option.ite_none_right_eq_some.mp h
    split at h
    case h_1 g q hq _ => cases h; exact .took hpc hq
    case h_2 => cases h; exact .missed
  | resume f =>
    cases hpc : s.pc f with
    | waking g =>
      rw [step, hpc, Option.some.injEq] at h
      subst h
      exact .resumed hpc
    | _ => rw [step, hpc] at h; cases h

/-! ### Owner and queue -/

theorem goto_same (s : State F) (f : F) (p : Pc F) : (s.goto f p).pc f = p := Function.update_self ..

theorem goto_other {s : State F} {f g : F} (h : g ≠ f) (p : Pc F) : (s.goto f p).pc g = s.pc g :=
  Function.update_of_ne h ..

/-- INVARIANT: `owner` is the fibre that has the mutex. -/
def Owned (s : State F) : Prop := ∀ f, s.pc f = .own ↔ s.owner = some f

theorem Owned.goto {s : State F} (hi : Owned s) {f : F} {p : Pc F} (hpc : s.pc f ≠ .own)
    (hp : p ≠ .own) : Owned (s.goto f p) := by
  intro g
  rcases eq_or_ne g f with rfl | hne
  · rw [goto_same]
    exact ⟨fun h => absurd h hp, fun h => absurd ((hi g).mpr h) hpc⟩
  · rw [goto_other hne]
    exact hi g

/-- INVARIANT: who has a node in the queue is blocked, and who has been popped has its waker. -/
structure Linked (s : State F) : Prop where
  nodup : s.queue.Nodup
  queued : ∀ f, f ∈ s.queue ↔ s.pc f = .queued
  popped : ∀ f, s.pc f = .popped ↔ ∃ g, s.pc g = .waking f
  waker : ∀ f g g', s.pc g = .waking f → s.pc g' = .waking f → g = g'

/-- A place that the queue or a waker knows of. -/
def Pc.linked : Pc F → Bool
  | .queued | .popped | .waking _ => true
  | _ => false

theorem Linked.goto {s t : State F} (hi : Linked s) (hq : t.queue = s.queue) (ht : t.pc = s.pc)
    {f : F} {p : Pc F} (hpc : (s.pc f).linked = false) (hp : p.linked = false) :
    Linked (t.goto f p) := by
  have hwaking : ∀ g h, (t.goto f p).pc g = .waking h ↔ s.pc g = .waking h := by
    intro g h
    rcases eq_or_ne g f with rfl | hne
    · rw [goto_same]
      refine ⟨fun he => ?_, fun he => ?_⟩
      · rw [he] at hp; cases hp
      · rw [he] at hpc; cases hpc
    · rw [goto_other hne, ht]
  refine ⟨hq ▸ hi.nodup, fun g => ?_, fun g => ?_, fun g h h' => ?_⟩
  · show g ∈ t.queue ↔ _
    rw [hq, hi.queued]
    rcases eq_or_ne g f with rfl | hne
    · rw [goto_same]
      refine ⟨fun he => ?_, fun he => ?_⟩
      · rw [he] at hpc; cases hpc
      · rw [he] at hp; cases hp
    · rw [goto_other hne, ht]
  · simp only [hwaking]
    rw [← hi.popped]
    rcases eq_or_ne g f with rfl | hne
    · rw [goto_same]
      refine ⟨fun he => ?_, fun he => ?_⟩
      · rw [he] at hp; cases hp
      · rw [he] at hpc; cases hpc
    · rw [goto_other hne, ht]
  · rw [hwaking, hwaking]
    exact hi.waker g h h'

omit [DecidableEq F] in
/-- The fibre whose waker is `f`, and the first of the queue, are neither `f` nor the owner. -/
theorem Linked.of_waking {s : State F} (hi : Linked s) {f g : F} (h : s.pc f = .waking g) :
    s.pc g = .popped ∧ g ≠ f := by
  have hg : s.pc g = .popped := (hi.popped g).mpr ⟨f, h⟩
  refine ⟨hg, ?_⟩
  rintro rfl
  rw [hg] at h
  cases h

omit [DecidableEq F] in
theorem Linked.of_queue {s : State F} (hi : Linked s) {f g : F} {q : List F}
    (hq : s.queue = g :: q) (hpc : s.pc f = .popping) : s.pc g = .queued ∧ g ≠ f := by
  have hg : s.pc g = .queued := (hi.queued g).mp (by rw [hq]; exact List.mem_cons_self ..)
  refine ⟨hg, ?_⟩
  rintro rfl
  rw [hg] at hpc
  cases hpc

/-- STEP: only `tryLock` and `release` touch the owner. -/
theorem Did.owned {s s' : State F} (hd : Did s s') (hl : Linked s) (hi : Owned s) :
    Owned s' := by
  cases hd with
  | @moved f p hpc hp => exact hi.goto (by rintro h; rw [h] at hpc; cases hpc) (by rintro rfl; cases hp)
  | lost hpc _ => exact hi.goto (by rw [hpc]; nofun) nofun
  | @locked f hpc hnone =>
    intro g
    rcases eq_or_ne g f with rfl | hne
    · rw [goto_same]
      exact ⟨fun _ => rfl, fun _ => rfl⟩
    · rw [goto_other hne]
      refine ⟨fun h => ?_, fun h => absurd (Option.some.inj h) (Ne.symm hne)⟩
      have howner := (hi g).mp h
      rw [hnone] at howner
      cases howner
  | opened hpc _ => exact hi.goto (by rw [hpc]; nofun) nofun
  | shut hpc _ => exact hi.goto (by rw [hpc]; nofun) nofun
  | pushed hpc => exact hi.goto (by rw [hpc]; nofun) nofun
  | @released f hpc =>
    have howner := (hi f).mp hpc
    intro g
    rcases eq_or_ne g f with rfl | hne
    · rw [goto_same]
      exact ⟨nofun, nofun⟩
    · rw [goto_other hne]
      refine ⟨fun h => ?_, nofun⟩
      have hother := (hi g).mp h
      rw [howner] at hother
      exact absurd (Option.some.inj hother) (Ne.symm hne)
  | put hpc _ => exact hi.goto (by rw [hpc]; nofun) nofun
  | owed hpc _ => exact hi.goto (by rw [hpc]; nofun) nofun
  | full hpc _ => exact hi.goto (by rw [hpc]; nofun) nofun
  | retried hpc _ => exact hi.goto (by rw [hpc]; nofun) nofun
  | @took f g q hpc hq =>
    obtain ⟨hg, hne⟩ := hl.of_queue hq hpc
    have hfirst : Owned ({ s with queue := q }.goto g .popped) :=
      Owned.goto (s := { s with queue := q }) hi (by rw [hg]; nofun) nofun
    exact hfirst.goto (by rw [goto_other hne.symm, hpc]; nofun) nofun
  | missed => exact hi
  | @resumed f g hpc =>
    obtain ⟨hg, hne⟩ := hl.of_waking hpc
    have hfirst : Owned (s.goto g .locking) := hi.goto (by rw [hg]; nofun) nofun
    exact hfirst.goto (by rw [goto_other hne.symm, hpc]; nofun) nofun

omit [DecidableEq F] in
theorem Pc.linked_of_idle {p : Pc F} (h : p.idle = true) : p.linked = false := by
  cases p <;> first | rfl | cases h

omit [DecidableEq F] in
theorem Pc.linked_of_tries {p : Pc F} (h : p.tries = true) : p.linked = false := by
  cases p <;> first | rfl | cases h

/-- A `push` puts the fibre behind the others. -/
theorem Linked.push {s : State F} (hi : Linked s) {f : F} (hpc : s.pc f = .pushing) :
    Linked (State.goto { s with queue := s.queue ++ [f] } f .queued) := by
  have hnew : f ∉ s.queue := by
    rw [hi.queued, hpc]
    nofun
  have hwaking : ∀ g h, (State.goto { s with queue := s.queue ++ [f] } f .queued).pc g = .waking h ↔
      s.pc g = .waking h := by
    intro g h
    rcases eq_or_ne g f with rfl | hne
    · rw [goto_same, hpc]
      exact ⟨nofun, nofun⟩
    · rw [goto_other hne]
  refine ⟨?_, fun g => ?_, fun g => ?_, fun g h h' => ?_⟩
  · exact List.nodup_append.mpr ⟨hi.nodup, List.nodup_singleton f, by
      rintro a ha b hb rfl
      exact hnew (List.mem_singleton.mp hb ▸ ha)⟩
  · show g ∈ s.queue ++ [f] ↔ _
    rw [List.mem_append, List.mem_singleton, hi.queued]
    rcases eq_or_ne g f with rfl | hne
    · simp [goto_same]
    · simp [goto_other hne, hne]
  · simp only [hwaking]
    rw [← hi.popped]
    rcases eq_or_ne g f with rfl | hne
    · rw [goto_same, hpc]
      exact ⟨nofun, nofun⟩
    · rw [goto_other hne]
  · rw [hwaking, hwaking]
    exact hi.waker g h h'

/-- A `pop` takes the first fibre of the queue, and `f` is its waker. -/
theorem Linked.pop {s : State F} (hi : Linked s) {f g : F} {q : List F} (hpc : s.pc f = .popping)
    (hq : s.queue = g :: q) :
    Linked (State.goto ({ s with queue := q }.goto g .popped) f (.waking g)) := by
  obtain ⟨hg, hne⟩ := hi.of_queue hq hpc
  have hnodup := hi.nodup
  rw [hq] at hnodup
  obtain ⟨hgq, hqn⟩ := List.nodup_cons.mp hnodup
  set t : State F := State.goto ({ s with queue := q }.goto g .popped) f (.waking g) with ht
  have htf : t.pc f = .waking g := goto_same ..
  have htg : t.pc g = .popped := by rw [ht, goto_other hne, goto_same]
  have hto : ∀ h, h ≠ f → h ≠ g → t.pc h = s.pc h := by
    intro h hhf hhg
    rw [ht, goto_other hhf, goto_other hhg]
  have hwaking : ∀ h k, t.pc h = .waking k → h = f ∧ k = g ∨ s.pc h = .waking k := by
    intro h k hk
    rcases eq_or_ne h f with rfl | hhf
    · rw [htf] at hk
      cases hk
      exact .inl ⟨rfl, rfl⟩
    · rcases eq_or_ne h g with rfl | hhg
      · rw [htg] at hk; cases hk
      · rw [hto h hhf hhg] at hk
        exact .inr hk
  have hnone : ∀ h, s.pc h ≠ .waking g := by
    intro h hh
    rw [(hi.of_waking hh).1] at hg
    cases hg
  refine ⟨hqn, fun h => ?_, fun h => ?_, fun k h h' => ?_⟩
  · show h ∈ q ↔ _
    have hmem := hi.queued h
    rw [hq, List.mem_cons] at hmem
    rcases eq_or_ne h g with rfl | hhg
    · rw [htg]
      exact ⟨fun he => absurd he hgq, nofun⟩
    · rcases eq_or_ne h f with rfl | hhf
      · rw [htf]
        refine ⟨fun he => ?_, nofun⟩
        have := hmem.mp (.inr he)
        rw [hpc] at this
        cases this
      · rw [hto h hhf hhg, ← hmem]
        exact ⟨.inr, fun he => he.resolve_left hhg⟩
  · rcases eq_or_ne h g with rfl | hhg
    · exact ⟨fun _ => ⟨f, htf⟩, fun _ => htg⟩
    · constructor
      · intro hp
        have hhf : h ≠ f := by
          rintro rfl
          rw [htf] at hp
          cases hp
        rw [hto h hhf hhg] at hp
        obtain ⟨k, hk⟩ := (hi.popped h).mp hp
        refine ⟨k, ?_⟩
        rw [hto k (by rintro rfl; rw [hpc] at hk; cases hk)
          (by rintro rfl; rw [hg] at hk; cases hk)]
        exact hk
      · rintro ⟨k, hk⟩
        rcases hwaking k h hk with ⟨_, rfl⟩ | hk
        · exact absurd rfl hhg
        · have hp := (hi.of_waking hk).1
          rw [hto h (by rintro rfl; rw [hpc] at hp; cases hp) hhg]
          exact hp
  · intro hh hh'
    rcases hwaking h k hh with ⟨hf, hk⟩ | hs
    · rcases hwaking h' k hh' with ⟨hf', _⟩ | hs'
      · rw [hf, hf']
      · rw [hk] at hs'
        exact absurd hs' (hnone h')
    · rcases hwaking h' k hh' with ⟨_, hk⟩ | hs'
      · rw [hk] at hs
        exact absurd hs (hnone h)
      · exact hi.waker k h h' hs hs'

/-- A resumption: the popped fibre and its waker go their ways. -/
theorem Linked.resume {s : State F} (hi : Linked s) {f g : F} (hpc : s.pc f = .waking g) :
    Linked ((s.goto g .locking).goto f .out) := by
  obtain ⟨hg, hne⟩ := hi.of_waking hpc
  set t : State F := (s.goto g .locking).goto f .out with ht
  have htf : t.pc f = .out := goto_same ..
  have htg : t.pc g = .locking := by rw [ht, goto_other hne, goto_same]
  have hto : ∀ h, h ≠ f → h ≠ g → t.pc h = s.pc h := by
    intro h hhf hhg
    rw [ht, goto_other hhf, goto_other hhg]
  have hwaking : ∀ h k, t.pc h = .waking k ↔ s.pc h = .waking k ∧ k ≠ g := by
    intro h k
    rcases eq_or_ne h f with rfl | hhf
    · rw [htf, hpc]
      refine ⟨nofun, ?_⟩
      rintro ⟨hk, hkg⟩
      cases hk
      exact absurd rfl hkg
    · rcases eq_or_ne h g with rfl | hhg
      · rw [htg, hg]
        exact ⟨nofun, fun hk => nomatch hk.1⟩
      · rw [hto h hhf hhg]
        refine ⟨fun hk => ⟨hk, ?_⟩, fun hk => hk.1⟩
        rintro rfl
        exact hhf (hi.waker k h f hk hpc)
  refine ⟨hi.nodup, fun h => ?_, fun h => ?_, fun k h h' => ?_⟩
  · show h ∈ s.queue ↔ _
    rw [hi.queued]
    rcases eq_or_ne h f with rfl | hhf
    · rw [htf, hpc]
      exact ⟨nofun, nofun⟩
    · rcases eq_or_ne h g with rfl | hhg
      · rw [htg, hg]
        exact ⟨nofun, nofun⟩
      · rw [hto h hhf hhg]
  · simp only [hwaking]
    rcases eq_or_ne h g with rfl | hhg
    · rw [htg]
      exact ⟨nofun, fun ⟨_, hk⟩ => absurd rfl hk.2⟩
    · rcases eq_or_ne h f with rfl | hhf
      · rw [htf]
        refine ⟨nofun, ?_⟩
        rintro ⟨k, hk, _⟩
        rw [(hi.of_waking hk).1] at hpc
        cases hpc
      · rw [hto h hhf hhg, hi.popped]
        exact ⟨fun ⟨k, hk⟩ => ⟨k, hk, hhg⟩, fun ⟨k, hk⟩ => ⟨k, hk.1⟩⟩
  · rw [hwaking, hwaking]
    rintro ⟨hh, _⟩ ⟨hh', _⟩
    exact hi.waker k h h' hh hh'

/-- STEP: every step keeps the links. -/
theorem Did.linked {s s' : State F} (hd : Did s s') (hi : Linked s) : Linked s' := by
  cases hd with
  | moved hpc hp => exact hi.goto rfl rfl (Pc.linked_of_idle hpc) (Pc.linked_of_idle hp)
  | lost hpc _ => exact hi.goto rfl rfl (by rw [hpc]; rfl) rfl
  | @locked f hpc _ =>
    exact hi.goto (t := { s with owner := some f }) rfl rfl (Pc.linked_of_tries hpc) rfl
  | opened hpc _ =>
    exact hi.goto (t := { s with counter := s.counter - 1 }) rfl rfl (by rw [hpc]; rfl) rfl
  | shut hpc _ =>
    exact hi.goto (t := { s with counter := s.counter - 1 }) rfl rfl (by rw [hpc]; rfl) rfl
  | pushed hpc => exact hi.push hpc
  | released hpc => exact hi.goto (t := { s with owner := none }) rfl rfl (by rw [hpc]; rfl) rfl
  | put hpc _ => exact hi.goto (t := { s with counter := 1 }) rfl rfl (by rw [hpc]; rfl) rfl
  | owed hpc _ =>
    exact hi.goto (t := { s with counter := s.counter + 1 }) rfl rfl (by rw [hpc]; rfl) rfl
  | full hpc _ => exact hi.goto rfl rfl (by rw [hpc]; rfl) rfl
  | retried hpc _ => exact hi.goto rfl rfl (by rw [hpc]; rfl) rfl
  | took hpc hq => exact hi.pop hpc hq
  | missed => exact hi
  | resumed hpc => exact hi.resume hpc

/-! ### The counter -/

/-- Blocked in the inner semaphore, or about to block there. -/
def Pc.blocks : Pc F → Bool
  | .pushing | .queued => true
  | _ => false

/-- A `V` that has incremented a negative counter and is yet to pop. -/
def Pc.pops : Pc F → Bool
  | .popping => true
  | _ => false

/-- About to do something that matters to the fibres that block. -/
def Pc.active : Pc F → Bool
  | .locking | .own | .benV _ | .popping | .waking _ => true
  | _ => false

/-- INVARIANT: nobody rests while the counter is not positive. -/
def Active (s : State F) : Prop := s.counter ≤ 0 → ∃ f, (s.pc f).active = true

theorem Active.goto {s t : State F} (hi : Active s) (hc : t.counter ≤ 0 → s.counter ≤ 0)
    (ht : t.pc = s.pc) {f : F} {p : Pc F} (hpc : (s.pc f).active = false) : Active (t.goto f p) := by
  intro hle
  obtain ⟨g, hg⟩ := hi (hc hle)
  have hne : g ≠ f := by
    rintro rfl
    rw [hpc] at hg
    cases hg
  exact ⟨g, by rw [goto_other hne, ht]; exact hg⟩

theorem active_goto (t : State F) (f : F) {p : Pc F} (hp : p.active = true) : Active (t.goto f p) :=
  fun _ => ⟨f, by rw [goto_same]; exact hp⟩

omit [DecidableEq F] in
theorem Pc.active_of_idle {p : Pc F} (h : p.idle = true) : p.active = false := by
  cases p <;> first | rfl | cases h

/-- STEP: whoever stops being active leaves somebody active, or the counter positive. -/
theorem Did.active {s s' : State F} (hd : Did s s') (ho : Owned s) (hl : Linked s)
    (hi : Active s) : Active s' := by
  cases hd with
  | moved hpc _ => exact hi.goto id rfl (Pc.active_of_idle hpc)
  | @lost f g hpc howner =>
    have hown : s.pc g = .own := (ho g).mpr howner
    have hne : g ≠ f := by
      rintro rfl
      rw [hown] at hpc
      cases hpc
    exact fun _ => ⟨g, by rw [goto_other hne, hown]; rfl⟩
  | locked => exact active_goto _ _ rfl
  | opened => exact active_goto _ _ rfl
  | @shut f hpc hle =>
    exact hi.goto (t := { s with counter := s.counter - 1 }) (fun _ => hle) rfl (by rw [hpc]; rfl)
  | @pushed f hpc =>
    exact hi.goto (t := { s with queue := s.queue ++ [f] }) id rfl (by rw [hpc]; rfl)
  | released => exact active_goto _ _ rfl
  | put =>
    intro hle
    exact absurd (show (1 : ℤ) ≤ 0 from hle) (by decide)
  | owed => exact active_goto _ _ rfl
  | full _ hone =>
    intro hle
    have hle : s.counter ≤ 0 := hle
    omega
  | retried => exact active_goto _ _ rfl
  | took => exact active_goto _ _ rfl
  | missed => exact hi
  | @resumed f g hpc =>
    obtain ⟨_, hne⟩ := hl.of_waking hpc
    exact fun _ => ⟨g, by rw [goto_other hne, goto_same]; rfl⟩

/-- INVARIANT: `w` fibres block and `v` calls of `V` are yet to pop. -/
def Balanced (counter : ℤ) (w v : ℕ) : Prop := counter ≤ 1 ∧ (w : ℤ) = max 0 (-counter) + v

section Counting
variable [Fintype F]

/-- The fibres blocked in the inner semaphore, or about to block there. -/
def State.blocking (s : State F) : ℕ := tally (fun p => p.blocks.toNat) s.pc

/-- The calls of `V` that have incremented a negative counter and are yet to pop. -/
def State.popping (s : State F) : ℕ := tally (fun p => p.pops.toNat) s.pc

theorem counts_goto (s : State F) (f : F) (q : Pc F) :
    (s.goto f q).blocking + (s.pc f).blocks.toNat = s.blocking + q.blocks.toNat ∧
    (s.goto f q).popping + (s.pc f).pops.toNat = s.popping + q.pops.toNat :=
  ⟨tally_update _ s.pc f q, tally_update _ s.pc f q⟩

/-- INVARIANT: the counter is what those that wait and those that wake have made of it. -/
def State.Balanced (s : State F) : Prop := FastMutex.Balanced s.counter s.blocking s.popping

/-- One fibre moves, from `p` to `q`. -/
theorem balanced_goto {owner : Option F} {counter : ℤ} {queue : List F} {s : State F} {f : F}
    {p : Pc F} (hpc : s.pc f = p) (q : Pc F) (hb : s.Balanced)
    (harith : ∀ w v w' v' : ℕ, w' + p.blocks.toNat = w + q.blocks.toNat →
      v' + p.pops.toNat = v + q.pops.toNat → Balanced s.counter w v → Balanced counter w' v') :
    (State.goto ⟨owner, counter, queue, s.pc⟩ f q).Balanced := by
  obtain ⟨hblock, hpop⟩ := counts_goto s f q
  rw [hpc] at hblock hpop
  exact harith s.blocking s.popping _ _ hblock hpop hb

/-- A move between places that neither block nor pop. -/
theorem balanced_quiet {owner : Option F} {queue : List F} {s : State F} {f : F} {q : Pc F}
    (hb : s.Balanced) (hblock : q.blocks = (s.pc f).blocks) (hpop : q.pops = (s.pc f).pops) :
    (State.goto ⟨owner, s.counter, queue, s.pc⟩ f q).Balanced := by
  refine balanced_goto rfl q hb ?_
  intro w v w' v' hw hv hb
  rw [hblock] at hw
  rw [hpop] at hv
  rw [Nat.add_right_cancel hw, Nat.add_right_cancel hv]
  exact hb

omit [DecidableEq F] [Fintype F] in
theorem Pc.quiet_of_idle {p : Pc F} (h : p.idle = true) : p.blocks = false ∧ p.pops = false := by
  cases p <;> first | exact ⟨rfl, rfl⟩ | cases h

omit [DecidableEq F] [Fintype F] in
theorem Pc.quiet_of_tries {p : Pc F} (h : p.tries = true) : p.blocks = false ∧ p.pops = false := by
  cases p <;> first | exact ⟨rfl, rfl⟩ | cases h

/-- STEP: every step keeps the balance. -/
theorem Did.balanced {s s' : State F} (hd : Did s s') (hl : Linked s) (hb : s.Balanced) :
    s'.Balanced := by
  cases hd with
  | moved hpc hp =>
    obtain ⟨hblock, hpop⟩ := Pc.quiet_of_idle hpc
    obtain ⟨hblock', hpop'⟩ := Pc.quiet_of_idle hp
    exact balanced_quiet hb (hblock'.trans hblock.symm) (hpop'.trans hpop.symm)
  | lost hpc _ => exact balanced_quiet hb (by rw [hpc]; rfl) (by rw [hpc]; rfl)
  | locked hpc _ =>
    obtain ⟨hblock, hpop⟩ := Pc.quiet_of_tries hpc
    exact balanced_quiet hb hblock.symm hpop.symm
  | opened hpc hpos =>
    refine balanced_goto hpc .locking hb ?_
    intro w v w' v' hw hv hb
    simp only [Pc.blocks, Pc.pops, Bool.toNat_false] at hw hv
    dsimp only [Balanced] at hb ⊢
    omega
  | shut hpc hle =>
    refine balanced_goto hpc .pushing hb ?_
    intro w v w' v' hw hv hb
    simp only [Pc.blocks, Pc.pops, Bool.toNat_false, Bool.toNat_true] at hw hv
    dsimp only [Balanced] at hb ⊢
    omega
  | pushed hpc => exact balanced_quiet hb (by rw [hpc]; rfl) (by rw [hpc]; rfl)
  | released hpc => exact balanced_quiet hb (by rw [hpc]; rfl) (by rw [hpc]; rfl)
  | put hpc hzero =>
    refine balanced_goto hpc .out hb ?_
    intro w v w' v' hw hv hb
    simp only [Pc.blocks, Pc.pops, Bool.toNat_false] at hw hv
    dsimp only [Balanced] at hb ⊢
    omega
  | owed hpc hneg =>
    refine balanced_goto hpc .popping hb ?_
    intro w v w' v' hw hv hb
    simp only [Pc.blocks, Pc.pops, Bool.toNat_false, Bool.toNat_true] at hw hv
    dsimp only [Balanced] at hb ⊢
    omega
  | full hpc _ => exact balanced_quiet hb (by rw [hpc]; rfl) (by rw [hpc]; rfl)
  | retried hpc _ => exact balanced_quiet hb (by rw [hpc]; rfl) (by rw [hpc]; rfl)
  | @took f g q hpc hq =>
    -- the fibre popped leaves the blocked ones, and its waker those that are yet to pop
    obtain ⟨hg, hne⟩ := hl.of_queue hq hpc
    obtain ⟨hw, hv⟩ := counts_goto s g .popped
    obtain ⟨hw', hv'⟩ := counts_goto (s.goto g .popped) f (.waking g)
    rw [hg] at hw hv
    rw [goto_other hne.symm, hpc] at hw' hv'
    simp only [Pc.blocks, Pc.pops, Bool.toNat_false, Bool.toNat_true] at hw hv hw' hv'
    show Balanced s.counter ((s.goto g .popped).goto f (.waking g)).blocking
      ((s.goto g .popped).goto f (.waking g)).popping
    dsimp only [State.Balanced, Balanced] at hb ⊢
    omega
  | missed => exact hb
  | @resumed f g hpc =>
    obtain ⟨hg, hne⟩ := hl.of_waking hpc
    have hfirst : (s.goto g .locking).Balanced :=
      balanced_quiet hb (by rw [hg]; rfl) (by rw [hg]; rfl)
    have hf : (s.goto g .locking).pc f = .waking g := by rw [goto_other hne.symm, hpc]
    exact @balanced_quiet F _ _ s.owner s.queue (s.goto g .locking) f .out hfirst (by rw [hf]; rfl)
      (by rw [hf]; rfl)

omit [DecidableEq F] [Fintype F] in
theorem Pc.seen_of_idle {p : Pc F} (h : p.idle = true) : p.seen = true := by
  cases p <;> first | rfl | cases h

/-- INVARIANT: what a fibre has seen of the counter is below 1. -/
def Seen (s : State F) : Prop := ∀ f, (s.pc f).seen = true

omit [Fintype F] in
theorem Seen.goto {s t : State F} (hi : Seen s) (ht : t.pc = s.pc) (f : F) {p : Pc F}
    (hp : p.seen = true) : Seen (t.goto f p) := by
  intro g
  rcases eq_or_ne g f with rfl | hne
  · rw [goto_same]
    exact hp
  · rw [goto_other hne, ht]
    exact hi g

theorem Did.seen {s s' : State F} (hd : Did s s') (hb : s.Balanced) (hi : Seen s) : Seen s' := by
  cases hd with
  | moved _ hp => exact hi.goto rfl _ (Pc.seen_of_idle hp)
  | retried _ hne =>
    have hle : s.counter ≤ 0 := by
      have := hb.1
      omega
    exact hi.goto rfl _ (decide_eq_true hle)
  | @took _ g q _ _ =>
    have hfirst : Seen ({ s with queue := q }.goto g .popped) := hi.goto rfl g rfl
    exact hfirst.goto rfl _ rfl
  | missed => exact hi
  | @resumed _ g _ =>
    have hfirst : Seen (s.goto g .locking) := hi.goto rfl g rfl
    exact hfirst.goto rfl _ rfl
  | _ => exact hi.goto rfl _ rfl

/-! ### Every run -/

/-- INVARIANT: all of the above. -/
structure Inv (s : State F) : Prop where
  seen : Seen s
  owned : Owned s
  linked : Linked s
  active : Active s
  balanced : s.Balanced

omit [DecidableEq F] in
theorem inv_init : Inv (.init : State F) := by
  refine ⟨fun _ => rfl, fun _ => ⟨nofun, nofun⟩, ?_, ?_, ?_⟩
  · exact ⟨List.nodup_nil, fun _ => ⟨nofun, nofun⟩, fun _ => ⟨nofun, nofun⟩, fun _ _ _ h => nomatch h⟩
  · intro hle
    exact absurd (show (1 : ℤ) ≤ 0 from hle) (by decide)
  · have hw : (State.init : State F).blocking = 0 := tally_eq_zero fun _ => rfl
    have hv : (State.init : State F).popping = 0 := tally_eq_zero fun _ => rfl
    rw [State.Balanced, hw, hv]
    exact ⟨Int.le_refl 1, show ((0 : ℕ) : ℤ) = max 0 (-1) + ((0 : ℕ) : ℤ) by decide⟩

/-- STEP: the invariant is kept. -/
theorem Inv.step {s s' : State F} {a : Action F} (hi : Inv s) (h : FastMutex.step s a = some s') :
    Inv s' := by
  have hd := step_did hi.seen h
  exact ⟨hd.seen hi.balanced hi.seen, hd.owned hi.linked hi.owned, hd.linked hi.linked,
    hd.active hi.owned hi.linked hi.active, hd.balanced hi.linked hi.balanced⟩

/-- RUN: the invariant holds. -/
theorem inv_reach {s : State F} (h : Reach (system F) s) : Inv s := by
  refine h.inv ?_ fun _ _ _ hi hs => hi.step hs
  rintro s rfl
  exact inv_init

/-- Inside `release`: the owner is gone, the wake-up is not done yet. -/
def Pc.releases : Pc F → Bool
  | .benV _ | .popping | .waking _ => true
  | _ => false

/-- Inside `acquire` and awake. -/
def Pc.acquires : Pc F → Bool
  | .spinning | .benP | .pushing | .locking => true
  | _ => false

/-- Blocked in `acquire`. -/
def Pc.blocked : Pc F → Bool
  | .queued | .popped => true
  | _ => false

omit [DecidableEq F] [Fintype F] in
theorem Pc.active_cases {p : Pc F} (h : p.active = true) :
    p = .own ∨ p.releases = true ∨ p.acquires = true := by
  cases p <;> simp_all [Pc.active, Pc.releases, Pc.acquires]

omit [DecidableEq F] in
/-- Nobody is on the way to the mutex or to a wake-up: the mutex is as it was built. -/
theorem Inv.rests {s : State F} (hi : Inv s) (howner : s.owner = none)
    (hrel : ∀ f, (s.pc f).releases = false) (hacq : ∀ f, (s.pc f).acquires = false) :
    s.counter = 1 ∧ ∀ f, (s.pc f).blocked = false := by
  have hone : s.counter = 1 := by
    by_contra hne
    have hle : s.counter ≤ 0 := by
      have := hi.balanced.1
      omega
    obtain ⟨f, hf⟩ := hi.active hle
    rcases Pc.active_cases hf with hown | hf | hf
    · rw [hi.owned, howner] at hown
      cases hown
    · rw [hrel] at hf
      cases hf
    · rw [hacq] at hf
      cases hf
  have hpopping : s.popping = 0 := tally_eq_zero fun f => by
    cases hpc : s.pc f with
    | popping =>
      have := hrel f
      rw [hpc] at this
      cases this
    | _ => rfl
  have hblocking : s.blocking = 0 := by
    have := hi.balanced.2
    rw [hone, hpopping] at this
    omega
  refine ⟨hone, fun f => ?_⟩
  cases hpc : s.pc f with
  | queued =>
    have hle : (s.pc f).blocks.toNat ≤ s.blocking := le_tally (fun p => p.blocks.toNat) s.pc f
    rw [hpc, hblocking] at hle
    exact absurd hle (Nat.not_succ_le_zero 0)
  | popped =>
    obtain ⟨g, hg⟩ := (hi.linked.popped f).mp hpc
    have := hrel g
    rw [hg] at this
    cases this
  | _ => rfl

/-- CORRECT: at most one fibre has the mutex; the counter is at most 1; who blocks is what the counter
    owes plus the wake-ups on their way; and a mutex nobody holds, releases or is awake to take is
    free, with nobody blocked. -/
theorem mutex_correct {s : State F} (h : Reach (system F) s) :
    (∀ f g, s.pc f = .own → s.pc g = .own → f = g) ∧
    s.counter ≤ 1 ∧
    (s.blocking : ℤ) = max 0 (-s.counter) + s.popping ∧
    (s.owner = none → (∀ f, (s.pc f).releases = false) → (∀ f, (s.pc f).acquires = false) →
      s.counter = 1 ∧ ∀ f, (s.pc f).blocked = false) := by
  have hi := inv_reach h
  refine ⟨fun f g hf hg => ?_, hi.balanced.1, hi.balanced.2, hi.rests⟩
  have hf := (hi.owned f).mp hf
  rw [(hi.owned g).mp hg] at hf
  exact (Option.some.inj hf).symm

end Counting

/-- Fibre `g` blocks behind `f`, is woken by the release of `f` and takes the mutex in its turn. -/
def handedOn (f g : F) : List (Action F) :=
  [.acquire f, .tryLock f false, .acquire g, .tryLock g false, .benP g, .tryLock g false, .benP g,
    .push g, .release f, .benV f, .benV f, .pop f true, .resume f, .tryLock g false, .release g,
    .benV g]

theorem mutex_correct_handedOn : ∃ s : State (Fin 2), Reach (system (Fin 2)) s ∧
    s.counter = 1 ∧ ∀ f, (s.pc f).blocked = false := by
  obtain ⟨s, hr, hp⟩ := reach_of_exec (system (Fin 2)) .init (handedOn 0 1)
    (fun s => decide (s.owner = none ∧ s.pc 0 = .out ∧ s.pc 1 = .out)) rfl (by decide)
  obtain ⟨howner, h0, h1⟩ := of_decide_eq_true hp
  obtain ⟨-, -, -, hrests⟩ := mutex_correct hr
  have hout : ∀ f, s.pc f = .out := by
    intro f
    match f with
    | 0 => exact h0
    | 1 => exact h1
  refine ⟨s, hr, hrests howner (fun f => ?_) (fun f => ?_)⟩
  · rw [hout f]; rfl
  · rw [hout f]; rfl

end Libfibre.FastMutex
