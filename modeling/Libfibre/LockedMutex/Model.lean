import Libfibre.Schemes.Transition
import Libfibre.Runtime.BlockingQueue
import Mathlib.Tactic.SplitIfs

/-! `LockedMutex` (`BlockingSync.h`): an owner and a queue of waiters under one internal lock. With `Fifo`
    a release passes the mutex to the fibre that it wakes; without, that fibre has to come back for
    it. Each section under the lock, each timer win and each resumption is one step.

        out ──▶ locking ──(owner)──▶ blocked ──▶ granted ──▶ woken ──Fifo──▶ own
                   │ ▲                  │ timer                │
                   │ └──────────────────┼──────────────────────┘ otherwise
                   ▼                    ▼
                  own ──▶ waking     expired ──▶ out -/

namespace Libfibre.LockedMutex
open Transition BlockingQueue

/-- How `acquire` is called: without arguments, with `false`, or with a timeout. -/
inductive Mode where
  | plain
  | trying
  | timed
  deriving DecidableEq

/-- The arguments of `block`; `ahead` is what `timeout > Runtime::Timer::now()` says. -/
def Mode.args (ahead : Bool) : Mode → Args
  | .plain => .wait true
  | .trying => .wait false
  | .timed => .timeout ahead

/-- Where a fibre is. -/
inductive Pc (F : Type) where
  | out
  | locking (mode : Mode)   -- before the section of `acquire`
  | blocked (mode : Mode)
  | expired                 -- the timer has won: before the node is removed
  | granted (mode : Mode)   -- `unblock` has won
  | woken (mode : Mode)     -- resumed
  | own
  | waking (next : F)       -- in `release`, before `next->resume`
  deriving DecidableEq

structure State (F : Type) where
  owner : Option F
  bq : List F
  pc : F → Pc F

inductive Action (F : Type) where
  | acquire (f : F) (mode : Mode)
  | lock (f : F) (ahead : Bool)
  | timer (f : F)
  | cancel (f : F)
  | release (f : F)
  | resume (f : F)
  | run (f : F)

/-- Asleep in `bq` with an open race. -/
def Pc.waits {F : Type} : Pc F → Bool
  | .blocked _ => true
  | _ => false

/-- Has a node in `bq`. -/
def Pc.queued {F : Type} : Pc F → Bool
  | .blocked _ | .expired => true
  | _ => false

variable {F : Type} [DecidableEq F]

def State.goto (s : State F) (f : F) (p : Pc F) : State F :=
  { s with pc := Function.update s.pc f p }

/-- The section of `internalAcquire`. -/
def internalAcquire (s : State F) (f : F) (mode : Mode) (ahead : Bool) : State F :=
  match s.owner with
  | none => State.goto { s with owner := some f } f .own
  | some _ =>
    if (mode.args ahead).blocks then State.goto { s with bq := s.bq ++ [f] } f (.blocked mode)
    else s.goto f .out

/-- `unblock` has taken `next` out of the queue, and its race is won. -/
def granted : Pc F → Pc F
  | .blocked mode => .granted mode
  | p => p

/-- The section of `release`. -/
def release (fifo : Bool) (s : State F) (f : F) : State F :=
  match unblock (fun g => (s.pc g).waits) s.bq with
  | (some next, q) =>
    State.goto { s with
      owner := if fifo then some next else none
      bq := q
      pc := Function.update s.pc next (granted (s.pc next)) } f (.waking next)
  | (none, q) => State.goto { s with owner := none, bq := q } f .out

def step (fifo : Bool) (s : State F) : Action F → Option (State F)
  | .acquire f mode => if s.pc f = .out then some (s.goto f (.locking mode)) else none
  | .lock f ahead =>
    match s.pc f with
    | .locking mode => some (internalAcquire s f mode ahead)
    | _ => none
  | .timer f => if s.pc f = .blocked .timed then some (s.goto f .expired) else none
  | .cancel f =>
    if s.pc f = .expired then some (State.goto { s with bq := s.bq.erase f } f .out) else none
  | .release f => if s.pc f = .own then some (release fifo s f) else none
  | .resume f =>
    match s.pc f with
    | .waking next =>
      match s.pc next with
      | .granted mode => some ((s.goto next (.woken mode)).goto f .out)
      | _ => none
    | _ => none
  | .run f =>
    match s.pc f with
    | .woken mode => some (s.goto f (if fifo then .own else .locking mode))
    | _ => none

def State.init : State F := ⟨none, [], fun _ => .out⟩

def system (F : Type) [DecidableEq F] (fifo : Bool) : System (State F) (Action F) :=
  ⟨fun s => s = .init, step fifo⟩

/-! ### The invariant -/

/-- Has the mutex: it has been passed to the fibre, or the fibre has taken it. -/
def Pc.owns (fifo : Bool) : Pc F → Bool
  | .own => true
  | .granted _ | .woken _ => fifo
  | _ => false

/-- On the way to the section of `acquire`. -/
def Pc.comes : Pc F → Bool
  | .locking _ | .granted _ | .woken _ => true
  | _ => false

def Pc.isGranted : Pc F → Bool
  | .granted _ => true
  | _ => false

/-- INVARIANT: the queue and the fibres agree, `owner` is the fibre that has the mutex, and a free mutex
    with fibres asleep has another fibre on its way to it. -/
structure Inv (fifo : Bool) (s : State F) : Prop where
  nodup : s.bq.Nodup
  queued : ∀ f, f ∈ s.bq ↔ (s.pc f).queued = true
  owner : ∀ f, s.owner = some f ↔ (s.pc f).owns fifo = true
  waking : ∀ f g, s.pc f = .waking g → (s.pc g).isGranted = true
  waker : ∀ f f' g, s.pc f = .waking g → s.pc f' = .waking g → f = f'
  awake : s.owner = none → (∃ f, (s.pc f).waits = true) →
    fifo = false ∧ ∃ f, (s.pc f).comes = true

section Steps
variable {fifo : Bool} {s s' : State F} {f g : F} {p : Pc F}

theorem goto_same (s : State F) (f : F) (p : Pc F) : (s.goto f p).pc f = p := Function.update_self ..

theorem goto_other (h : g ≠ f) (p : Pc F) : (s.goto f p).pc g = s.pc g := Function.update_of_ne h ..

/-- A place that no resumption is about. -/
def Pc.plain : Pc F → Bool
  | .granted _ | .waking _ => false
  | _ => true

omit [DecidableEq F] in
theorem Pc.ne_of_plain (h : p.plain = true) (g : F) : p ≠ .waking g ∧ p.isGranted = false := by
  cases p <;> first | cases h; done | exact ⟨by simp, rfl⟩

/-- One fibre moves; no other is woken. -/
theorem Inv.move (h : Inv fifo s) (hpc : s'.pc = Function.update s.pc f p)
    (hbq : s'.bq.Nodup) (hqueued : ∀ g, g ≠ f → (g ∈ s'.bq ↔ g ∈ s.bq))
    (hmine : f ∈ s'.bq ↔ p.queued = true) (howner : s'.owner = some f ↔ p.owns fifo = true)
    (hothers : ∀ g, g ≠ f → (s'.owner = some g ↔ s.owner = some g))
    (hplain : p.plain = true ∧ (s.pc f).plain = true)
    (hawake : s'.owner = none → (∃ g, (s'.pc g).waits = true) →
      fifo = false ∧ ∃ g, (s'.pc g).comes = true) : Inv fifo s' := by
  obtain ⟨hp, hold⟩ := hplain
  have hnew := fun g => (Pc.ne_of_plain hp g).1
  have hf : s'.pc f = p := by rw [hpc, Function.update_self]
  have hother : ∀ g, g ≠ f → s'.pc g = s.pc g := fun g hg => by rw [hpc, Function.update_of_ne hg]
  have hwaking : ∀ g k, s'.pc g = .waking k → s.pc g = .waking k := by
    intro g k hg
    rcases eq_or_ne g f with rfl | hne
    · rw [hf] at hg
      exact absurd hg (hnew k)
    · rwa [hother g hne] at hg
  refine ⟨hbq, fun g => ?_, fun g => ?_, fun g k hg => ?_, fun g g' k hg hg' => ?_, hawake⟩
  · rcases eq_or_ne g f with rfl | hne
    · rw [hf]
      exact hmine
    · rw [hother g hne, hqueued g hne]
      exact h.queued g
  · rcases eq_or_ne g f with rfl | hne
    · rw [hf]
      exact howner
    · rw [hother g hne, hothers g hne]
      exact h.owner g
  · have hk := h.waking g k (hwaking g k hg)
    rcases eq_or_ne k f with rfl | hne
    · rw [(Pc.ne_of_plain hold k).2] at hk
      cases hk
    · rw [hother k hne]
      exact hk
  · exact h.waker g g' k (hwaking g k hg) (hwaking g' k hg')

/-- A free mutex stays attended to. -/
theorem Inv.awake_keep (h : Inv fifo s) (hpc : s'.pc = Function.update s.pc f p)
    (howner : s'.owner = none → s.owner = none) (hwaits : p.waits = false)
    (hcomes : (s.pc f).comes = true → p.comes = true) (hn : s'.owner = none)
    (hw : ∃ g, (s'.pc g).waits = true) : fifo = false ∧ ∃ g, (s'.pc g).comes = true := by
  obtain ⟨g, hg⟩ := hw
  have hgf : g ≠ f := by
    rintro rfl
    rw [hpc, Function.update_self, hwaits] at hg
    cases hg
  rw [hpc, Function.update_of_ne hgf] at hg
  obtain ⟨hfifo, k, hk⟩ := h.awake (howner hn) ⟨g, hg⟩
  refine ⟨hfifo, k, ?_⟩
  rw [hpc]
  rcases eq_or_ne k f with rfl | hne
  · rw [Function.update_self]
    exact hcomes hk
  · rw [Function.update_of_ne hne]
    exact hk

/-- A fibre moves and touches nothing. -/
theorem Inv.goto (h : Inv fifo s) (hqueued : p.queued = (s.pc f).queued)
    (howns : p.owns fifo = (s.pc f).owns fifo) (hplain : p.plain = true ∧ (s.pc f).plain = true)
    (hwaits : p.waits = false)
    (hcomes : s.owner = none → (s.pc f).comes = true → p.comes = true) : Inv fifo (s.goto f p) := by
  refine h.move rfl h.nodup (fun _ _ => Iff.rfl) (by rw [hqueued]; exact h.queued f)
    (by rw [howns]; exact h.owner f) (fun _ _ => Iff.rfl) hplain fun hn => ?_
  exact h.awake_keep rfl (fun hn => hn) hwaits (hcomes hn) hn

theorem Inv.internalAcquire (h : Inv fifo s) {mode : Mode} {ahead : Bool} (hpc : s.pc f = .locking mode) :
    Inv fifo (internalAcquire s f mode ahead) := by
  have hf : f ∉ s.bq := by
    rw [h.queued, hpc]
    simp [Pc.queued]
  rw [LockedMutex.internalAcquire]
  cases howner : s.owner with
  | none =>
    refine h.move rfl h.nodup (fun _ _ => Iff.rfl) (iff_of_false hf (by simp [Pc.queued]))
      (iff_of_true rfl rfl) (fun g hg => ?_) ⟨rfl, by rw [hpc]; rfl⟩ fun hn => ?_
    · rw [howner]
      exact iff_of_false (fun he => hg (Option.some.inj he).symm) (by simp)
    · cases hn
  | some k =>
    have hkf : k ≠ f := by
      rintro rfl
      have hown := (h.owner k).mp howner
      rw [hpc] at hown
      cases hown
    have hmine : ¬ some k = some f := fun he => hkf (Option.some.inj he)
    dsimp only
    split_ifs
    · refine h.move rfl (nodup_pushBack h.nodup hf) (fun g hg => ?_) (iff_of_true ?_ rfl)
        (iff_of_false hmine (by simp [Pc.owns])) (fun _ _ => by rw [howner]; exact Iff.rfl)
        ⟨rfl, by rw [hpc]; rfl⟩ fun hn => ?_
      · simp [State.goto, hg]
      · simp [State.goto]
      · cases hn
    · exact h.goto (by rw [hpc]; rfl) (by rw [hpc]; rfl) ⟨rfl, by rw [hpc]; rfl⟩ rfl fun hn => by
        rw [howner] at hn
        cases hn

omit [DecidableEq F] in
theorem Inv.mem_of_waits (h : Inv fifo s) (hf : (s.pc f).waits = true) : f ∈ s.bq := by
  rw [h.queued]
  cases hpc : s.pc f with
  | blocked mode => rfl
  | _ => rw [hpc] at hf; cases hf

/-- The section of `release` passes the mutex on, or frees it. -/
theorem Inv.release (h : Inv fifo s) (hpc : s.pc f = .own) : Inv fifo (release fifo s f) := by
  have howner := (h.owner f).mpr (by rw [hpc]; rfl)
  rw [LockedMutex.release]
  rcases unblock_cases h.nodup fun g hg => h.mem_of_waits hg with
    ⟨next, q, hq, hwaits, hnodup, hmem⟩ | ⟨hq, hnone⟩
  · rw [hq]
    dsimp only
    have hnf : next ≠ f := by
      rintro rfl
      rw [hpc] at hwaits
      cases hwaits
    obtain ⟨mode, hmode⟩ : ∃ mode, s.pc next = .blocked mode := by
      cases hn : s.pc next with
      | blocked mode => exact ⟨mode, rfl⟩
      | _ => rw [hn] at hwaits; cases hwaits
    rw [hmode]
    set pc := Function.update (Function.update s.pc next (granted (.blocked mode))) f (.waking next)
      with hpc'
    have hf : pc f = .waking next := Function.update_self ..
    have hnext : pc next = .granted mode := by
      rw [hpc', Function.update_of_ne hnf, Function.update_self]
      rfl
    have hother : ∀ g, g ≠ f → g ≠ next → pc g = s.pc g := fun g hgf hgn => by
      rw [hpc', Function.update_of_ne hgf, Function.update_of_ne hgn]
    have hwaking : ∀ g k, pc g = .waking k → g = f ∧ k = next ∨ s.pc g = .waking k := by
      intro g k hg
      rcases eq_or_ne g f with rfl | hgf
      · exact .inl ⟨rfl, (Pc.waking.inj (hf.symm.trans hg)).symm⟩
      · rcases eq_or_ne g next with rfl | hgn
        · have hc := hnext.symm.trans hg
          cases hc
        · exact .inr ((hother g hgf hgn).symm.trans hg)
    have hnew : ∀ g, s.pc g ≠ .waking next := by
      intro g hg
      have hgr := h.waking g next hg
      rw [hmode] at hgr
      cases hgr
    refine ⟨hnodup, fun g => ?_, fun g => ?_, fun g k hg => ?_, fun g g' k hg hg' => ?_, fun hn _ => ?_⟩
    · show g ∈ q ↔ (pc g).queued = true
      rw [hmem, h.queued]
      rcases eq_or_ne g f with rfl | hgf
      · rw [hf, hpc]
        simp [Pc.queued]
      · rcases eq_or_ne g next with rfl | hgn
        · rw [hnext]
          simp [Pc.queued]
        · rw [hother g hgf hgn]
          simp [hgn]
    · show (if fifo then some next else none) = some g ↔ (pc g).owns fifo = true
      rcases eq_or_ne g f with rfl | hgf
      · rw [hf]
        refine iff_of_false (fun he => ?_) (by simp [Pc.owns])
        split_ifs at he
        exact hnf (Option.some.inj he)
      · rcases eq_or_ne g next with rfl | hgn
        · rw [hnext]
          cases fifo <;> simp [Pc.owns]
        · rw [hother g hgf hgn, ← h.owner g, howner]
          refine iff_of_false (fun he => ?_) fun he => hgf (Option.some.inj he).symm
          split_ifs at he
          exact hgn (Option.some.inj he).symm
    · show (pc k).isGranted = true
      rcases hwaking g k hg with ⟨-, rfl⟩ | hg
      · rw [hnext]
        rfl
      · have hk := h.waking g k hg
        rcases eq_or_ne k f with rfl | hkf
        · rw [hpc] at hk
          cases hk
        · rcases eq_or_ne k next with rfl | hkn
          · rw [hnext]
            rfl
          · rw [hother k hkf hkn, hk]
    · rcases hwaking g k hg with ⟨hgf, hkn⟩ | hg
      · rcases hwaking g' k hg' with ⟨hgf', -⟩ | hg'
        · rw [hgf, hgf']
        · rw [hkn] at hg'
          exact absurd hg' (hnew g')
      · rcases hwaking g' k hg' with ⟨-, hkn⟩ | hg'
        · rw [hkn] at hg
          exact absurd hg (hnew g)
        · exact h.waker g g' k hg hg'
    · refine ⟨?_, next, ?_⟩
      · cases fifo with
        | false => rfl
        | true => cases hn
      · exact (congrArg Pc.comes hnext).trans rfl
  · rw [hq]
    refine h.move rfl h.nodup (fun _ _ => Iff.rfl) (iff_of_false ?_ (by simp [Pc.queued]))
      (iff_of_false (by simp [State.goto]) (by simp [Pc.owns])) (fun g hg => ?_)
      ⟨rfl, by rw [hpc]; rfl⟩ fun _ hw => ?_
    · show f ∉ s.bq
      rw [h.queued, hpc]
      simp [Pc.queued]
    · rw [howner]
      exact iff_of_false (by simp [State.goto]) fun he => hg (Option.some.inj he).symm
    · obtain ⟨g, hg⟩ := hw
      rcases eq_or_ne g f with rfl | hne
      · rw [goto_same] at hg
        cases hg
      · rw [goto_other hne] at hg
        have hg' := hnone g
        rw [hg] at hg'
        cases hg'

/-- The fibre that has been woken, and its waker, go on. -/
theorem Inv.resume (h : Inv fifo s) {mode : Mode} (hpc : s.pc f = .waking g)
    (hg : s.pc g = .granted mode) : Inv fifo ((s.goto g (.woken mode)).goto f .out) := by
  have hgf : g ≠ f := by
    rintro rfl
    rw [hpc] at hg
    cases hg
  set pc := Function.update (Function.update s.pc g (.woken mode)) f .out with hpc'
  have hf : pc f = .out := Function.update_self ..
  have hnext : pc g = .woken mode := by
    rw [hpc', Function.update_of_ne hgf, Function.update_self]
  have hother : ∀ k, k ≠ f → k ≠ g → pc k = s.pc k := fun k hkf hkg => by
    rw [hpc', Function.update_of_ne hkf, Function.update_of_ne hkg]
  have hsame : ∀ {α : Type} (c : Pc F → α), c (.waking g) = c .out → c (.granted mode) = c (.woken mode) →
      ∀ k, c (pc k) = c (s.pc k) := by
    intro α c hc hc' k
    rcases eq_or_ne k f with rfl | hkf
    · rw [hf, hpc, hc]
    · rcases eq_or_ne k g with rfl | hkg
      · rw [hnext, hg, hc']
      · rw [hother k hkf hkg]
  have hwaking : ∀ k l, pc k = .waking l → k ≠ f ∧ s.pc k = .waking l := by
    intro k l hk
    rcases eq_or_ne k f with rfl | hkf
    · have hc := hf.symm.trans hk
      cases hc
    · rcases eq_or_ne k g with rfl | hkg
      · have hc := hnext.symm.trans hk
        cases hc
      · exact ⟨hkf, (hother k hkf hkg).symm.trans hk⟩
  refine ⟨h.nodup, fun k => ?_, fun k => ?_, fun k l hk => ?_, fun k k' l hk hk' => ?_, fun hn hw => ?_⟩
  · show k ∈ s.bq ↔ (pc k).queued = true
    rw [hsame Pc.queued rfl rfl]
    exact h.queued k
  · show s.owner = some k ↔ (pc k).owns fifo = true
    rw [hsame (Pc.owns fifo) rfl rfl]
    exact h.owner k
  · obtain ⟨hkf, hold⟩ := hwaking k l hk
    have hlg : l ≠ g := by
      rintro rfl
      exact hkf (h.waker k f l hold hpc)
    have hl := h.waking k l hold
    have hlf : l ≠ f := by
      rintro rfl
      rw [hpc] at hl
      cases hl
    exact (congrArg Pc.isGranted (hother l hlf hlg)).trans hl
  · exact h.waker k k' l (hwaking k l hk).2 (hwaking k' l hk').2
  · obtain ⟨k, hk⟩ := hw
    obtain ⟨hfifo, l, hl⟩ := h.awake hn ⟨k, by rw [← hsame Pc.waits rfl rfl k]; exact hk⟩
    exact ⟨hfifo, l, (hsame Pc.comes rfl rfl l).trans hl⟩

/-- STEP: every step keeps the invariant. -/
theorem Inv.step {a : Action F} (h : Inv fifo s) (hs : step fifo s a = some s') : Inv fifo s' := by
  cases a with
  | acquire f mode =>
    obtain ⟨hpc, hs⟩ := Option.ite_none_right_eq_some.mp hs
    obtain rfl := Option.some.inj hs
    exact h.goto (by rw [hpc]; rfl) (by rw [hpc]; rfl) ⟨rfl, by rw [hpc]; rfl⟩ rfl fun _ _ => rfl
  | lock f ahead =>
    simp only [LockedMutex.step] at hs
    split at hs
    · rename_i mode hpc
      obtain rfl := Option.some.inj hs
      exact h.internalAcquire hpc
    · cases hs
  | timer f =>
    obtain ⟨hpc, hs⟩ := Option.ite_none_right_eq_some.mp hs
    obtain rfl := Option.some.inj hs
    exact h.goto (by rw [hpc]; rfl) (by rw [hpc]; rfl) ⟨rfl, by rw [hpc]; rfl⟩ rfl fun _ hc => by
      rw [hpc] at hc
      cases hc
  | cancel f =>
    obtain ⟨hpc, hs⟩ := Option.ite_none_right_eq_some.mp hs
    obtain rfl := Option.some.inj hs
    refine h.move rfl (h.nodup.erase f) (fun g hg => List.mem_erase_of_ne hg)
      (iff_of_false (h.nodup.not_mem_erase) (by simp [Pc.queued]))
      (by rw [State.goto, h.owner f, hpc]; rfl) (fun _ _ => Iff.rfl) ⟨rfl, by rw [hpc]; rfl⟩ fun hn => ?_
    exact h.awake_keep rfl (fun hn => hn) rfl (by rw [hpc]; simp [Pc.comes]) hn
  | release f =>
    obtain ⟨hpc, hs⟩ := Option.ite_none_right_eq_some.mp hs
    obtain rfl := Option.some.inj hs
    exact h.release hpc
  | resume f =>
    simp only [LockedMutex.step] at hs
    split at hs
    · rename_i g hpc
      split at hs
      · rename_i mode hg
        obtain rfl := Option.some.inj hs
        exact h.resume hpc hg
      · cases hs
    · cases hs
  | run f =>
    simp only [LockedMutex.step] at hs
    split at hs
    · rename_i mode hpc
      obtain rfl := Option.some.inj hs
      cases fifo with
      | true =>
        have howner := (h.owner f).mpr (by rw [hpc]; rfl)
        exact h.goto (by rw [hpc]; rfl) (by rw [hpc]; rfl) ⟨rfl, by rw [hpc]; rfl⟩ rfl fun hn => by
          rw [howner] at hn
          cases hn
      | false =>
        exact h.goto (by rw [hpc]; rfl) (by rw [hpc]; rfl) ⟨rfl, by rw [hpc]; rfl⟩ rfl fun _ _ => rfl
    · cases hs

omit [DecidableEq F] in
theorem inv_init : Inv fifo (State.init : State F) := by
  refine ⟨List.nodup_nil, fun f => ?_, fun f => ?_, fun f g hf => ?_, fun f f' g hf => ?_, fun _ hw => ?_⟩
  · exact iff_of_false List.not_mem_nil (by simp [State.init, Pc.queued])
  · exact iff_of_false (by simp [State.init]) (by simp [State.init, Pc.owns])
  · cases hf
  · cases hf
  · obtain ⟨f, hf⟩ := hw
    cases hf

end Steps

end Libfibre.LockedMutex
