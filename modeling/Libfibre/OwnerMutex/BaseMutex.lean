import Libfibre.LockedMutex.Model
import Libfibre.Schemes.Threads
import Libfibre.SpinCondMutex.Core

/-! What an `OwnerMutex` (`BlockingSync.h`) has to know of the mutex that it derives from: which fibres are
    in its calls, and its field `owner`. Each of `SpinCondMutex`, `SpinSemMutex` and `LockedMutex` is such a
    mutex. The queue of the first and the semaphore of the second are template parameters: here they
    may return at any time, and with either result. -/

namespace Libfibre.OwnerMutex
open Threads
open LockedMutex (Mode)

/-- Where a fibre is with respect to the base mutex. -/
inductive Phase where
  | outside
  | acquiring   -- in `internalAcquire`, past the test of `owner`
  | holding     -- `internalAcquire` has returned `true`
  | releasing
  deriving DecidableEq

/-- How a fibre goes on inside a call. -/
def Phase.goes : Phase → Phase → Bool
  | .acquiring, .outside | .acquiring, .holding | .releasing, .outside => true
  | p, q => decide (p = q)

/-- A mutex that excludes and has a field `owner`: a fibre that holds it is its owner, one that is not in
    any call is not, and a fibre that becomes the owner in the course of its `internalAcquire` stays it
    and gets `true`. -/
structure BaseMutex (F : Type) where
  State : Type
  Action : Type
  start : State
  owner : State → Option F
  phase : State → F → Phase
  actor : Action → F
  acquire : State → F → Mode → Option State
  release : State → F → Option State
  step : State → Action → Option State
  Inv : State → Prop
  start_inv : Inv start
  start_phase : ∀ f, phase start f = .outside
  holding : ∀ s f, Inv s → phase s f = .holding → owner s = some f
  outside : ∀ s f, Inv s → phase s f = .outside → owner s ≠ some f
  acquire_inv : ∀ s f mode s', Inv s → acquire s f mode = some s' → Inv s'
  acquire_phase : ∀ s f mode s', acquire s f mode = some s' → phase s f = .outside ∧
    phase s' f = .acquiring ∧ owner s' = owner s ∧ ∀ g, g ≠ f → phase s' g = phase s g
  release_inv : ∀ s f s', Inv s → release s f = some s' → Inv s'
  release_phase : ∀ s f s', Inv s → release s f = some s' → phase s f = .holding ∧
    (phase s' f = .releasing ∨ phase s' f = .outside) ∧ ∀ g, g ≠ f → phase s' g = phase s g
  step_inv : ∀ s a s', Inv s → step s a = some s' → Inv s'
  step_actor : ∀ s a s', step s a = some s' →
    phase s (actor a) = .acquiring ∨ phase s (actor a) = .releasing
  step_phase : ∀ s a s', Inv s → step s a = some s' → ∀ f, (phase s f).goes (phase s' f) = true
  step_mine : ∀ s a s', Inv s → step s a = some s' → phase s (actor a) = .acquiring →
    owner s' = owner s ∨ owner s' = some (actor a)
  step_keeps : ∀ s a s', Inv s → step s a = some s' → ∀ f, phase s f = .acquiring →
    owner s = some f → owner s' = some f

theorem goes_self (p : Phase) : p.goes p = true := by cases p <;> rfl

/-- One fibre goes on. -/
theorem goes_update {F C : Type} [DecidableEq F] {phase : C → Phase} {pc : F → C} {f : F} {p : C}
    (h : (phase (pc f)).goes (phase p) = true) (g : F) :
    (phase (pc g)).goes (phase (Function.update pc f p g)) = true := by
  rcases eq_or_ne g f with rfl | hg
  · rwa [Function.update_self]
  · rw [Function.update_of_ne hg]
    exact goes_self _

variable {F : Type} [DecidableEq F]

/-! ### `SpinCondMutex` -/

namespace Cond
open SpinCondMutex hiding Mode

/-- `block` and `unblock` of the queue have no places of their own here. -/
abbrev Pc := SpinCondMutex.Pc Unit Unit

/-- What a place in `SpinCondMutex` is to the mutex above it. -/
def phase : Pc → Phase
  | .out => .outside
  | .holder => .holding
  | .disowned | .unblock _ => .releasing
  | _ => .acquiring

/-- The steps of a call once it has begun; those of the queue give their result. -/
inductive Action (F : Type) where
  | next (f : F)
  | blocked (f : F) (ok : Bool)   -- `queue.block` returns `ok`
  | unblocked (f : F)             -- `queue.unblock` returns

/-- The fibre whose call takes the step. -/
def Action.actor : Action F → F
  | .next f | .blocked f _ | .unblocked f => f

/-- A call of `acquire`, `tryAcquire` or `acquire` with a timeout begins. -/
def acquire (P : Spins) (c : Core F Unit Unit) (f : F) : Mode → Option (Core F Unit Unit)
  | .plain => SpinCondMutex.acquire P c f .plain
  | .trying => tryAcquire c f
  | .timed => SpinCondMutex.acquire P c f .timed

/-- A call goes on. -/
def step (P : Spins) (c : Core F Unit Unit) : Action F → Option (Core F Unit Unit)
  | .next f => next P (fun _ => ()) () c f
  | .blocked f ok =>
    match c.pc f with
    | .block mode _ => some (c.goto f (if ok then .relock mode else .out))
    | _ => none
  | .unblocked f =>
    match c.pc f with
    | .unblock _ => some (c.goto f .out)
    | _ => none

section Laws
variable {P : Spins} {c c' : Core F Unit Unit} {f : F} {mode : Mode} {a : Action F}

theorem acquire_moves (h : acquire P c f mode = some c') :
    c.pc f = .out ∧ ∃ p : Pc, phase p = .acquiring ∧ p.critical = false ∧ c' = c.goto f p := by
  cases mode with
  | plain =>
    obtain ⟨hpc, rfl⟩ := acquire_did h
    exact ⟨hpc, _, rfl, rfl, rfl⟩
  | trying =>
    obtain ⟨hpc, rfl⟩ := tryAcquire_did h
    exact ⟨hpc, _, rfl, rfl, rfl⟩
  | timed =>
    obtain ⟨hpc, rfl⟩ := acquire_did h
    exact ⟨hpc, _, rfl, rfl, rfl⟩

theorem step_did (h : step P c a = some c') : Did c a.actor c' := by
  cases a with
  | next f => exact next_did h
  | blocked f ok =>
    simp only [step] at h
    split at h
    · rename_i mode b hpc
      obtain rfl := Option.some.inj h
      exact .moved (by rw [Action.actor, hpc]; rfl) (by cases ok <;> rfl)
    · cases h
  | unblocked f =>
    simp only [step] at h
    split at h
    · rename_i u hpc
      obtain rfl := Option.some.inj h
      exact .moved (by rw [Action.actor, hpc]; rfl) rfl
    · cases h

theorem round1_phase (mode : SpinCondMutex.Mode) (spin value : ℕ) :
    phase (round1 P mode spin value) = .acquiring := by
  rw [round1]
  split_ifs <;> rfl

theorem round2_phase (mode : SpinCondMutex.Mode) (spin scnt ycnt : ℕ) :
    phase (round2 P (fun _ => ()) mode spin scnt ycnt) = .acquiring := by
  rw [round2]
  split_ifs <;> rfl

theorem tryLock1_goes {fail : ℕ → Pc} (h : phase (c.pc f) = .acquiring)
    (hfail : ∀ n, phase (fail n) = .acquiring ∨ phase (fail n) = .outside) (g : F) :
    (phase (c.pc g)).goes (phase ((tryLock1 c f fail).pc g)) = true := by
  rw [tryLock1]
  split_ifs
  · exact goes_update (by rw [h]; rfl) g
  · refine goes_update ?_ g
    rcases hfail c.value with hp | hp <;> rw [h, hp] <;> rfl

theorem tryLock2_goes {fail : Pc} (h : phase (c.pc f) = .acquiring)
    (hfail : phase fail = .acquiring) (g : F) :
    (phase (c.pc g)).goes (phase ((tryLock2 c f fail).pc g)) = true := by
  refine goes_update ?_ g
  rw [h]
  split_ifs
  · rfl
  · rw [hfail]
    rfl

theorem step_goes (h : step P c a = some c') (g : F) :
    (phase (c.pc g)).goes (phase (c'.pc g)) = true := by
  cases a with
  | next f =>
    simp only [step, next] at h
    split at h <;> rename_i hpc <;> simp only [Option.some.injEq, reduceCtorEq] at h <;> subst h
    · exact tryLock1_goes (by rw [hpc]; rfl) (fun _ => .inr rfl) g
    · exact tryLock1_goes (by rw [hpc]; rfl) (fun _ => .inl (round1_phase ..)) g
    · exact tryLock2_goes (by rw [hpc]; rfl) (round2_phase ..) g
    · exact tryLock2_goes (by rw [hpc]; rfl) rfl g
    · exact goes_update (by rw [hpc]; rfl) g
    · refine goes_update ?_ g
      rw [hpc]
      split_ifs <;> rfl
  | blocked f ok =>
    simp only [step] at h
    split at h
    · rename_i mode b hpc
      obtain rfl := Option.some.inj h
      refine goes_update ?_ g
      rw [hpc]
      cases ok <;> rfl
    · cases h
  | unblocked f =>
    simp only [step] at h
    split at h
    · rename_i u hpc
      obtain rfl := Option.some.inj h
      exact goes_update (by rw [hpc]; rfl) g
    · cases h

theorem step_actor (h : step P c a = some c') :
    phase (c.pc a.actor) = .acquiring ∨ phase (c.pc a.actor) = .releasing := by
  cases a with
  | next f =>
    simp only [step, next] at h
    rw [Action.actor]
    split at h <;> rename_i hpc <;>
      first | exact .inl (by rw [hpc]; rfl) | exact .inr (by rw [hpc]; rfl) | cases h
  | blocked f ok =>
    simp only [step] at h
    split at h
    · rename_i mode b hpc
      exact .inl (by rw [Action.actor, hpc]; rfl)
    · cases h
  | unblocked f =>
    simp only [step] at h
    split at h
    · rename_i u hpc
      exact .inr (by rw [Action.actor, hpc]; rfl)
    · cases h

omit [DecidableEq F] in
/-- Whoever is the owner is past its `internalAcquire`. -/
theorem owner_holds (h : Exclusive c) (howner : c.owner = some f) : phase (c.pc f) = .holding := by
  rw [(h.owner f).mp howner]
  rfl

theorem step_mine (h : step P c a = some c') (hpc : phase (c.pc a.actor) = .acquiring) :
    c'.owner = c.owner ∨ c'.owner = some a.actor := by
  cases step_did h with
  | moved _ _ => exact .inl rfl
  | locked _ _ _ => exact .inl rfl
  | contended _ _ _ => exact .inl rfl
  | owned _ => exact .inr rfl
  | disowned hf => rw [hf] at hpc; cases hpc
  | freed _ _ => exact .inl rfl

end Laws

end Cond

/-- `SpinCondMutex`, with any parameters and any queue. -/
def spinCondMutex (F : Type) [DecidableEq F] (P : SpinCondMutex.Spins) : BaseMutex F where
  State := SpinCondMutex.Core F Unit Unit
  Action := Cond.Action F
  start := SpinCondMutex.start
  owner c := c.owner
  phase c f := Cond.phase (c.pc f)
  actor := Cond.Action.actor
  acquire := Cond.acquire P
  release := SpinCondMutex.release
  step := Cond.step P
  Inv := SpinCondMutex.Exclusive
  start_inv := SpinCondMutex.exclusive_start
  start_phase _ := rfl
  holding c f h hf := by
    refine (h.owner f).mpr ?_
    cases hpc : c.pc f <;> rw [hpc] at hf <;> first | rfl | cases hf
  outside c f h hf howner := by
    rw [Cond.owner_holds h howner] at hf
    cases hf
  acquire_inv c f mode c' h hs := by
    obtain ⟨hpc, p, -, hp, rfl⟩ := Cond.acquire_moves hs
    exact SpinCondMutex.Did.exclusive (.moved (by rw [hpc]; rfl) hp) h
  acquire_phase c f mode c' hs := by
    obtain ⟨hpc, p, hp, -, rfl⟩ := Cond.acquire_moves hs
    refine ⟨by rw [hpc]; rfl, ?_, rfl, fun g hg => ?_⟩
    · rw [SpinCondMutex.goto_pc, Function.update_self, hp]
    · rw [SpinCondMutex.goto_pc, Function.update_of_ne hg]
  release_inv c f c' h hs := by
    obtain ⟨hpc, rfl⟩ := SpinCondMutex.release_did hs
    exact SpinCondMutex.Did.exclusive (.disowned hpc) h
  release_phase c f c' h hs := by
    obtain ⟨hpc, rfl⟩ := SpinCondMutex.release_did hs
    refine ⟨by rw [hpc]; rfl, .inl ?_, fun g hg => ?_⟩
    · rw [SpinCondMutex.goto_pc, Function.update_self]
      rfl
    · rw [SpinCondMutex.goto_pc, Function.update_of_ne hg]
  step_inv c a c' h hs := (Cond.step_did hs).exclusive h
  step_actor c a c' hs := Cond.step_actor hs
  step_phase c a c' _ hs := Cond.step_goes hs
  step_mine c a c' _ hs := Cond.step_mine hs
  step_keeps c a c' h _ f hf howner := by
    rw [Cond.owner_holds h howner] at hf
    cases hf

/-! ### `SpinSemMutex` -/

namespace Sem

/-- Where a fibre is in `SpinSemMutex`. -/
inductive Pc where
  | out
  | trying      -- `wait` is `false`: before `tryLock`
  | spinning    -- in `Spin`, before `tryLock`
  | semP        -- in `sem.P`
  | locking     -- past `sem.P`, before `tryLock`
  | own
  | semV        -- in `release`: in `sem.V`, or before `next->resume`
  deriving DecidableEq

/-- What a place in `SpinSemMutex` is to the mutex above it. -/
def phase : Pc → Phase
  | .out => .outside
  | .own => .holding
  | .semV => .releasing
  | _ => .acquiring

/-- `owner`, and where each fibre is; the semaphore lets anybody pass. -/
structure State (F : Type) where
  owner : Option F
  pc : F → Pc

/-- The steps of a call once it has begun; `sem.P` gives its result. -/
inductive Action (F : Type) where
  | tryLock (f : F) (spin : Bool)   -- `spin`: `Spin` goes on if it fails
  | semP (f : F) (ok : Bool)        -- `sem.P` returns `ok`
  | semV (f : F)

/-- The fibre whose call takes the step. -/
def Action.actor : Action F → F
  | .tryLock f _ | .semP f _ | .semV f => f

/-- Fibre `f` goes to another place. -/
def State.goto (s : State F) (f : F) (p : Pc) : State F :=
  { s with pc := Function.update s.pc f p }

/-- `tryLock`, and where the fibre goes if it fails. -/
def tryLock (s : State F) (f : F) (failed : Pc) : State F :=
  match s.owner with
  | none => State.goto { s with owner := some f } f .own
  | some _ => s.goto f failed

/-- `internalAcquire`, past the tests of `owner`. -/
def acquire (s : State F) (f : F) (mode : Mode) : Option (State F) :=
  if s.pc f = .out then some (s.goto f (if mode = .trying then .trying else .spinning)) else none

/-- `release` gives the lock up before its `sem.V`. -/
def release (s : State F) (f : F) : Option (State F) :=
  if s.pc f = .own then some (State.goto { s with owner := none } f .semV) else none

/-- A call goes on. -/
def step (s : State F) : Action F → Option (State F)
  | .tryLock f spin =>
    match s.pc f with
    | .trying => some (tryLock s f .out)
    | .spinning => some (tryLock s f (if spin then .spinning else .semP))
    | .locking => some (tryLock s f .semP)
    | _ => none
  | .semP f ok => if s.pc f = .semP then some (s.goto f (if ok then .locking else .out)) else none
  | .semV f => if s.pc f = .semV then some (s.goto f .out) else none

/-- INVARIANT: the owner holds the mutex. -/
def Owned (s : State F) : Prop := ∀ f, s.owner = some f ↔ s.pc f = .own

/-- What a step inside the calls can do. -/
inductive Did (s : State F) (f : F) : State F → Prop
  | moved {p : Pc} : s.pc f ≠ .own → p ≠ .own → (phase (s.pc f)).goes (phase p) = true →
      Did s f (s.goto f p)
  | locked : s.owner = none → phase (s.pc f) = .acquiring →
      Did s f (State.goto { s with owner := some f } f .own)

section Laws
variable {s s' : State F} {f : F} {mode : Mode} {a : Action F} {p : Pc}

theorem did_tryLock (hf : phase (s.pc f) = .acquiring)
    (hp : phase p = .acquiring ∨ phase p = .outside) : Did s f (tryLock s f p) := by
  have hnot : p ≠ .own := by
    rintro rfl
    rcases hp with hp | hp <;> cases hp
  have hfnot : s.pc f ≠ .own := by
    intro hown
    rw [hown] at hf
    cases hf
  rw [tryLock]
  split
  · exact .locked ‹_› hf
  · refine .moved hfnot hnot ?_
    rcases hp with hp | hp <;> rw [hf, hp] <;> rfl

theorem step_did (h : step s a = some s') : Did s a.actor s' := by
  cases a with
  | tryLock f spin =>
    simp only [step] at h
    split at h <;> rename_i hpc <;> simp only [Option.some.injEq, reduceCtorEq] at h <;> subst h
    · exact did_tryLock (by rw [Action.actor, hpc]; rfl) (.inr rfl)
    · exact did_tryLock (by rw [Action.actor, hpc]; rfl) (.inl (by cases spin <;> rfl))
    · exact did_tryLock (by rw [Action.actor, hpc]; rfl) (.inl rfl)
  | semP f ok =>
    obtain ⟨hpc, h⟩ := Option.ite_none_right_eq_some.mp h
    obtain rfl := Option.some.inj h
    refine .moved (by simp [Action.actor, hpc]) (by cases ok <;> simp) ?_
    rw [Action.actor, hpc]
    cases ok <;> rfl
  | semV f =>
    obtain ⟨hpc, h⟩ := Option.ite_none_right_eq_some.mp h
    obtain rfl := Option.some.inj h
    exact .moved (by simp [Action.actor, hpc]) (by simp) (by rw [Action.actor, hpc]; rfl)

theorem step_actor (h : step s a = some s') :
    phase (s.pc a.actor) = .acquiring ∨ phase (s.pc a.actor) = .releasing := by
  cases a with
  | tryLock f spin =>
    simp only [step] at h
    rw [Action.actor]
    split at h <;> rename_i hpc <;> first | exact .inl (by rw [hpc]; rfl) | cases h
  | semP f ok =>
    obtain ⟨hpc, -⟩ := Option.ite_none_right_eq_some.mp h
    exact .inl (by rw [Action.actor, hpc]; rfl)
  | semV f =>
    obtain ⟨hpc, -⟩ := Option.ite_none_right_eq_some.mp h
    exact .inr (by rw [Action.actor, hpc]; rfl)

theorem Owned.goto (h : Owned s) (hf : s.pc f ≠ .own) (hp : p ≠ .own) : Owned (s.goto f p) :=
  fun g => (h g).trans (at_iff (iff_of_false hp hf) g).symm

theorem Did.owned (h : Did s f s') (hi : Owned s) : Owned s' := by
  cases h with
  | moved hf hp _ => exact hi.goto hf hp
  | locked hfree _ =>
    intro g
    rcases eq_or_ne g f with rfl | hg
    · exact iff_of_true rfl (Function.update_self ..)
    · refine iff_of_false (fun he => hg (Option.some.inj he).symm) fun hown => ?_
      have howner := (hi g).mpr ((Function.update_of_ne hg ..).symm.trans hown)
      rw [hfree] at howner
      cases howner

theorem Did.goes (h : Did s f s') (g : F) : (phase (s.pc g)).goes (phase (s'.pc g)) = true := by
  cases h with
  | moved _ _ hgoes => exact goes_update hgoes g
  | locked _ hf => exact goes_update (by rw [hf]; rfl) g

theorem release_owned (hi : Owned s) (hpc : s.pc f = .own) :
    Owned (State.goto { s with owner := none } f .semV) := by
  have howner := (hi f).mpr hpc
  intro g
  refine iff_of_false nofun fun hown => ?_
  obtain ⟨hg, hown⟩ := stayed hown nofun
  have hother := (hi g).mpr hown
  exact hg (Option.some.inj (hother.symm.trans howner))

end Laws

end Sem

/-- `SpinSemMutex`, with any parameters and any semaphore. -/
def spinSemMutex (F : Type) [DecidableEq F] : BaseMutex F where
  State := Sem.State F
  Action := Sem.Action F
  start := ⟨none, fun _ => .out⟩
  owner s := s.owner
  phase s f := Sem.phase (s.pc f)
  actor := Sem.Action.actor
  acquire := Sem.acquire
  release := Sem.release
  step := Sem.step
  Inv := Sem.Owned
  start_inv _ := iff_of_false nofun nofun
  start_phase _ := rfl
  holding s f h hf := by
    refine (h f).mpr ?_
    cases hpc : s.pc f <;> rw [hpc] at hf <;> first | rfl | cases hf
  outside s f h hf howner := by
    rw [(h f).mp howner] at hf
    cases hf
  acquire_inv s f mode s' h hs := by
    obtain ⟨hpc, hs⟩ := Option.ite_none_right_eq_some.mp hs
    obtain rfl := Option.some.inj hs
    exact h.goto (by simp [hpc]) (by split_ifs <;> simp)
  acquire_phase s f mode s' hs := by
    obtain ⟨hpc, hs⟩ := Option.ite_none_right_eq_some.mp hs
    obtain rfl := Option.some.inj hs
    refine ⟨by rw [hpc]; rfl, ?_, rfl, fun g hg => ?_⟩
    · refine (congrArg Sem.phase (Function.update_self ..)).trans ?_
      split_ifs <;> rfl
    · exact congrArg Sem.phase (Function.update_of_ne hg ..)
  release_inv s f s' h hs := by
    obtain ⟨hpc, hs⟩ := Option.ite_none_right_eq_some.mp hs
    obtain rfl := Option.some.inj hs
    exact Sem.release_owned h hpc
  release_phase s f s' h hs := by
    obtain ⟨hpc, hs⟩ := Option.ite_none_right_eq_some.mp hs
    obtain rfl := Option.some.inj hs
    refine ⟨by rw [hpc]; rfl, .inl ?_, fun g hg => ?_⟩
    · exact (congrArg Sem.phase (Function.update_self ..)).trans rfl
    · exact congrArg Sem.phase (Function.update_of_ne hg ..)
  step_inv s a s' h hs := (Sem.step_did hs).owned h
  step_actor s a s' hs := Sem.step_actor hs
  step_phase s a s' _ hs := (Sem.step_did hs).goes
  step_mine s a s' _ hs _ := by
    cases Sem.step_did hs with
    | moved _ _ _ => exact .inl rfl
    | locked _ _ => exact .inr rfl
  step_keeps s a s' h _ f hf howner := by
    rw [(h f).mp howner] at hf
    cases hf

/-! ### `LockedMutex` -/

namespace Locked
open LockedMutex

/-- What a place in `LockedMutex` is to the mutex above it. -/
def phase : LockedMutex.Pc F → Phase
  | .out => .outside
  | .own => .holding
  | .waking _ => .releasing
  | _ => .acquiring

/-- The fibre whose call takes the step, or whose node is acted on. -/
def actor : Action F → F
  | .acquire f _ | .lock f _ | .timer f | .cancel f | .release f | .resume f | .run f => f

/-- A call of `acquire` begins, in one of its three forms. -/
def acquire (fifo : Bool) (s : State F) (f : F) (mode : Mode) : Option (State F) :=
  LockedMutex.step fifo s (.acquire f mode)

/-- A call of `release` begins. -/
def release (fifo : Bool) (s : State F) (f : F) : Option (State F) :=
  LockedMutex.step fifo s (.release f)

/-- The steps inside the calls. -/
def step (fifo : Bool) (s : State F) : Action F → Option (State F)
  | .acquire _ _ | .release _ => none
  | a => LockedMutex.step fifo s a

section Laws
variable {fifo : Bool} {s s' : State F} {f g : F} {mode : Mode} {a : Action F}

theorem step_step (h : step fifo s a = some s') : LockedMutex.step fifo s a = some s' := by
  cases a <;> first | exact h | cases h

omit [DecidableEq F] in
theorem phase_of_owns {p : LockedMutex.Pc F} (h : p.owns fifo = true) :
    phase p = .holding ∨ phase p = .acquiring := by
  cases p <;> first | exact .inl rfl | exact .inr rfl | cases h

theorem acquire_did (h : acquire fifo s f mode = some s') :
    s.pc f = .out ∧ s' = s.goto f (.locking mode) := by
  obtain ⟨hpc, h⟩ := Option.ite_none_right_eq_some.mp h
  exact ⟨hpc, (Option.some.inj h).symm⟩

/-- Who is passed the mutex was in its `internalAcquire`, and is. -/
theorem release_phases (g : F) (hg : g ≠ f) :
    phase ((LockedMutex.release fifo s f).pc g) = phase (s.pc g) := by
  rw [LockedMutex.release]
  split
  · rename_i next q _
    change phase (Function.update (Function.update s.pc next (granted (s.pc next))) f (.waking next) g) = _
    rw [Function.update_of_ne hg]
    refine same_at (f := phase) ?_ g
    cases s.pc next <;> rfl
  · exact congrArg phase (Function.update_of_ne hg ..)

theorem release_mine : phase ((LockedMutex.release fifo s f).pc f) = .releasing ∨
    phase ((LockedMutex.release fifo s f).pc f) = .outside := by
  rw [LockedMutex.release]
  split
  · rw [goto_same]
    exact .inl rfl
  · rw [goto_same]
    exact .inr rfl

theorem internalAcquire_goes {ahead : Bool} (hpc : s.pc f = .locking mode) (g : F) :
    (phase (s.pc g)).goes (phase ((internalAcquire s f mode ahead).pc g)) = true := by
  rw [internalAcquire]
  split
  · exact goes_update (by rw [hpc]; rfl) g
  · split_ifs <;> exact goes_update (by rw [hpc]; rfl) g

theorem step_goes (h : step fifo s a = some s') (g : F) :
    (phase (s.pc g)).goes (phase (s'.pc g)) = true := by
  cases a with
  | acquire f mode => cases h
  | release f => cases h
  | lock f ahead =>
    simp only [step, LockedMutex.step] at h
    split at h
    · rename_i mode hpc
      obtain rfl := Option.some.inj h
      exact internalAcquire_goes hpc g
    · cases h
  | timer f =>
    obtain ⟨hpc, h⟩ := Option.ite_none_right_eq_some.mp h
    obtain rfl := Option.some.inj h
    exact goes_update (by rw [hpc]; rfl) g
  | cancel f =>
    obtain ⟨hpc, h⟩ := Option.ite_none_right_eq_some.mp h
    obtain rfl := Option.some.inj h
    exact goes_update (by rw [hpc]; rfl) g
  | resume f =>
    simp only [step, LockedMutex.step] at h
    split at h
    · rename_i next hpc
      split at h
      · rename_i mode hnext
        obtain rfl := Option.some.inj h
        have hsame : phase ((s.goto next (.woken mode)).pc g) = phase (s.pc g) :=
          same_at (f := phase) (by rw [hnext]; rfl) g
        rw [← hsame]
        refine goes_update ?_ g
        have hnf : f ≠ next := by
          rintro rfl
          rw [hpc] at hnext
          cases hnext
        rw [goto_other hnf, hpc]
        rfl
      · cases h
    · cases h
  | run f =>
    simp only [step, LockedMutex.step] at h
    split at h
    · rename_i mode hpc
      obtain rfl := Option.some.inj h
      refine goes_update ?_ g
      rw [hpc]
      cases fifo <;> rfl
    · cases h

theorem step_actor (h : step fifo s a = some s') :
    phase (s.pc (actor a)) = .acquiring ∨ phase (s.pc (actor a)) = .releasing := by
  cases a with
  | acquire f mode => cases h
  | release f => cases h
  | lock f ahead =>
    simp only [step, LockedMutex.step] at h
    split at h
    · rename_i mode hpc
      exact .inl (by rw [actor, hpc]; rfl)
    · cases h
  | timer f =>
    obtain ⟨hpc, -⟩ := Option.ite_none_right_eq_some.mp h
    exact .inl (by rw [actor, hpc]; rfl)
  | cancel f =>
    obtain ⟨hpc, -⟩ := Option.ite_none_right_eq_some.mp h
    exact .inl (by rw [actor, hpc]; rfl)
  | resume f =>
    simp only [step, LockedMutex.step] at h
    split at h
    · rename_i next hpc
      exact .inr (by rw [actor, hpc]; rfl)
    · cases h
  | run f =>
    simp only [step, LockedMutex.step] at h
    split at h
    · rename_i mode hpc
      exact .inl (by rw [actor, hpc]; rfl)
    · cases h

/-- Inside the calls the owner changes only as a fibre finds the mutex free. -/
theorem step_owner (h : step fifo s a = some s') :
    s'.owner = s.owner ∨ s.owner = none ∧ s'.owner = some (actor a) := by
  cases a with
  | acquire f mode => cases h
  | release f => cases h
  | lock f ahead =>
    simp only [step, LockedMutex.step] at h
    split at h
    · obtain rfl := Option.some.inj h
      rw [internalAcquire]
      split
      · exact .inr ⟨‹_›, rfl⟩
      · split_ifs <;> exact .inl rfl
    · cases h
  | timer f =>
    obtain ⟨-, h⟩ := Option.ite_none_right_eq_some.mp h
    obtain rfl := Option.some.inj h
    exact .inl rfl
  | cancel f =>
    obtain ⟨-, h⟩ := Option.ite_none_right_eq_some.mp h
    obtain rfl := Option.some.inj h
    exact .inl rfl
  | resume f =>
    simp only [step, LockedMutex.step] at h
    split at h
    · split at h
      · obtain rfl := Option.some.inj h
        exact .inl rfl
      · cases h
    · cases h
  | run f =>
    simp only [step, LockedMutex.step] at h
    split at h
    · obtain rfl := Option.some.inj h
      exact .inl rfl
    · cases h

end Laws

end Locked

/-- `LockedMutex`, with and without `Fifo`. -/
def lockedMutex (F : Type) [DecidableEq F] (fifo : Bool) : BaseMutex F where
  State := LockedMutex.State F
  Action := LockedMutex.Action F
  start := .init
  owner s := s.owner
  phase s f := Locked.phase (s.pc f)
  actor := Locked.actor
  acquire := Locked.acquire fifo
  release := Locked.release fifo
  step := Locked.step fifo
  Inv := LockedMutex.Inv fifo
  start_inv := LockedMutex.inv_init
  start_phase _ := rfl
  holding s f h hf := by
    refine (h.owner f).mpr ?_
    cases hpc : s.pc f <;> rw [hpc] at hf <;> first | rfl | cases hf
  outside s f h hf howner := by
    rcases Locked.phase_of_owns ((h.owner f).mp howner) with hp | hp <;> rw [hp] at hf <;> cases hf
  acquire_inv s f mode s' h hs := h.step hs
  acquire_phase s f mode s' hs := by
    obtain ⟨hpc, rfl⟩ := Locked.acquire_did hs
    refine ⟨by rw [hpc]; rfl, ?_, rfl, fun g hg => ?_⟩
    · exact congrArg Locked.phase (LockedMutex.goto_same s f (.locking mode))
    · exact congrArg Locked.phase (Function.update_of_ne hg ..)
  release_inv s f s' h hs := h.step hs
  release_phase s f s' h hs := by
    obtain ⟨hpc, hs⟩ := Option.ite_none_right_eq_some.mp hs
    obtain rfl := Option.some.inj hs
    exact ⟨by rw [hpc]; rfl, Locked.release_mine, Locked.release_phases⟩
  step_inv s a s' h hs := h.step (Locked.step_step hs)
  step_actor s a s' hs := Locked.step_actor hs
  step_phase s a s' _ hs := Locked.step_goes hs
  step_mine s a s' _ hs _ := (Locked.step_owner hs).imp_right And.right
  step_keeps s a s' _ hs f _ howner := by
    rcases Locked.step_owner hs with hsame | ⟨hnone, -⟩
    · exact hsame.trans howner
    · rw [hnone] at howner
      cases howner

end Libfibre.OwnerMutex
