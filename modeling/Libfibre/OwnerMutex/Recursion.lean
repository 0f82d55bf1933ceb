import Libfibre.OwnerMutex.BaseMutex
import Libfibre.Runtime.Word
import Libfibre.Schemes.Transition

/-! `OwnerMutex` (`BlockingSync.h`) with recursion enabled, over any base mutex. `++counter` and `--counter`
    are protected by nothing but the base mutex, and the test for recursion reads `owner` while other
    fibres write it.

        acquire:  out ──▶ testing ──▶ entering ──▶ acquiring ──▶ out (0)
                             │ cf == owner             │
                             └──────────▶ counting ◀───┘
                                             │ ++counter
                                             ▼
        release:  out ──▶ freeing ──▶ freed ──▶ out

    A fibre that has the base mutex and is about to count it first, or has counted it to 0 and is about to
    release it, holds it with a `counter` of 0. -/

namespace Libfibre.OwnerMutex
open Transition Threads Word
open LockedMutex (Mode)

/-- Where a fibre is in the calls of the `OwnerMutex`. -/
inductive Pc where
  | out
  | testing (mode : Mode)    -- before `cf == owner`
  | entering (mode : Mode)   -- before the assertion that `cf != owner`
  | acquiring                -- in the rest of `internalAcquire`
  | counting                 -- `internalAcquire` has returned `true`: before `++counter`
  | freeing                  -- `--counter` is 0: before `BaseMutex::release`
  | freed                    -- in `BaseMutex::release`
  deriving DecidableEq

/-- What a call has returned, and the depth of the fibre then; whether a failed `acquire`, which does not
    get to `++counter`, has changed `owner`; and whether a `release` has called that of the base mutex. -/
inductive Event (F : Type) where
  | acquired (f : F) (returned depth : ℕ)
  | failed (f : F) (returned : ℕ) (changed : Bool)
  | released (f : F) (returned depth : ℕ) (freed : Bool)
  deriving DecidableEq

/-- The base mutex, `counter`, and where each fibre is in the calls around it. -/
structure State {F : Type} (B : BaseMutex F) where
  base : B.State
  counter : ℕ
  pc : F → Pc
  acquires : F → ℕ         -- history: successful ones
  releases : F → ℕ         -- history
  changed : F → Bool       -- history: `owner`, by the latest `acquire` of each fibre
  events : List (Event F)  -- history

/-- A step of `OwnerMutex` itself, or one inside a call of the base mutex. -/
inductive Action {F : Type} (B : BaseMutex F) where
  | acquire (f : F) (mode : Mode)
  | test (f : F)
  | enter (f : F)
  | base (a : B.Action)    -- a step inside a call of the base mutex
  | won (f : F)            -- `internalAcquire` returns `true`
  | lost (f : F)
  | count (f : F)
  | release (f : F)
  | free (f : F)
  | done (f : F)           -- `BaseMutex::release` returns

section Model
variable {F : Type} [DecidableEq F] {B : BaseMutex F}

/-- Fibre `f` goes to another place. -/
def State.goto (s : State B) (f : F) (p : Pc) : State B :=
  { s with pc := Function.update s.pc f p }

/-- What the base mutex is to fibre `f`. -/
def State.phase (s : State B) (f : F) : Phase := B.phase s.base f

/-- `owner`, which the base mutex keeps. -/
def State.owner (s : State B) : Option F := B.owner s.base

/-- The successful acquires of a fibre, less its releases. -/
def State.depth (s : State B) (f : F) : ℕ := s.acquires f - s.releases f

/-- A call of `f` returns. -/
def State.returns (s : State B) (f : F) (e : Event F) : State B :=
  State.goto { s with events := s.events ++ [e] } f .out

/-- The base mutex makes a step of `f`'s. -/
def State.setBase (s : State B) (f : F) (b : B.State) : State B :=
  { s with
    base := b
    changed := Function.update s.changed f (s.changed f || decide (B.owner b ≠ B.owner s.base)) }

/-- `return ++counter` -/
def State.count (s : State B) (f : F) : State B :=
  let s' : State B := { s with
    counter := word (s.counter + 1)
    acquires := Function.update s.acquires f (s.acquires f + 1) }
  s'.returns f (.acquired f s'.counter (s'.depth f))

/-- `if (--counter > 0) return counter` -/
def State.uncount (s : State B) (f : F) : State B :=
  let s' : State B := { s with
    counter := minus s.counter 1
    releases := Function.update s.releases f (s.releases f + 1) }
  if 0 < s'.counter then s'.returns f (.released f s'.counter (s'.depth f) false)
  else s'.goto f .freeing

/-- One step; only a fibre that has acquired the mutex more often than released it releases it. -/
def step (s : State B) : Action B → Option (State B)
  | .acquire f mode =>
    if s.pc f = .out then
      some (State.goto { s with changed := Function.update s.changed f false } f (.testing mode))
    else none
  | .test f =>
    match s.pc f with
    | .testing mode => some (s.goto f (if s.owner = some f then .counting else .entering mode))
    | _ => none
  | .enter f =>
    match s.pc f with
    | .entering mode =>
      if s.owner = some f then none
      else (B.acquire s.base f mode).map fun b => (s.setBase f b).goto f .acquiring
    | _ => none
  | .base a => (B.step s.base a).map fun b => s.setBase (B.actor a) b
  | .won f => if s.pc f = .acquiring ∧ s.phase f = .holding then some (s.goto f .counting) else none
  | .lost f =>
    if s.pc f = .acquiring ∧ s.phase f = .outside then some (s.returns f (.failed f 0 (s.changed f)))
    else none
  | .count f => if s.pc f = .counting then some (s.count f) else none
  | .release f => if s.pc f = .out ∧ s.releases f < s.acquires f then some (s.uncount f) else none
  | .free f =>
    if s.pc f = .freeing then (B.release s.base f).map fun b => (s.setBase f b).goto f .freed else none
  | .done f =>
    if s.pc f = .freed ∧ s.phase f = .outside then some (s.returns f (.released f 0 (s.depth f) true))
    else none

/-- A new mutex, with recursion enabled. -/
def start : State B where
  base := B.start
  counter := 0
  pc _ := .out
  acquires _ := 0
  releases _ := 0
  changed _ := false
  events := []

/-- Any number of fibres use `OwnerMutex` over `B`. -/
def ownerMutex (B : BaseMutex F) : System (State B) (Action B) where
  init s := s = start
  step := step

/-- The mutex is acquired once more by a fibre that has acquired it 2^64 - 1 times already. -/
def overflows (s : State B) : Action B → Bool
  | .count _ => decide (s.counter + 1 = 2 ^ 64)
  | _ => false

end Model

/-! ### What the mutex is for -/

/-- A successful `acquire` returns the new depth and a failed one 0, without having changed anything;
    `release` returns the remaining depth, and has released the base mutex exactly if that is 0. -/
def Event.Lawful {F : Type} : Event F → Prop
  | .acquired _ returned depth => returned = depth ∧ 0 < returned
  | .failed _ returned changed => returned = 0 ∧ changed = false
  | .released _ returned depth freed => returned = depth ∧ (freed = true ↔ depth = 0)

/-- About to count the mutex for the first time, or to release it. -/
def Pc.uncounted : Pc → Bool
  | .acquiring | .counting | .freeing => true
  | _ => false

/-- One owner at a time, which gives the mutex up with its last `release`. -/
structure Correct {F : Type} {B : BaseMutex F} (s : State B) : Prop where
  exclusive : ∀ f g, s.phase f = .holding → s.phase g = .holding → f = g
  owner : ∀ f, s.phase f = .holding → s.owner = some f
  balance : ∀ f, s.releases f ≤ s.acquires f
  counter : ∀ f, s.phase f = .holding → s.counter = s.depth f
  others : ∀ f, s.phase f ≠ .holding → s.depth f = 0
  free : (∀ f, s.phase f ≠ .holding) → s.counter = 0
  zero : s.counter = 0 → ∀ f, s.phase f = .holding → (s.pc f).uncounted = true
  events : ∀ e ∈ s.events, e.Lawful

/-- What goes with a fibre's place in the calls of the `OwnerMutex`. -/
def Place {F : Type} {B : BaseMutex F} (s : State B) (f : F) : Pc → Prop
  | .out => s.phase f = .outside ∨ s.phase f = .holding ∧ 0 < s.counter
  | .testing _ => (s.phase f = .outside ∨ s.phase f = .holding ∧ 0 < s.counter) ∧ s.changed f = false
  | .entering _ => s.phase f = .outside ∧ s.changed f = false
  | .acquiring => s.phase f ≠ .releasing ∧ (s.phase f = .holding → s.counter = 0) ∧
    (s.changed f = true → s.owner = some f)
  | .counting => s.phase f = .holding
  | .freeing => s.phase f = .holding ∧ s.counter = 0
  | .freed => s.phase f = .releasing ∨ s.phase f = .outside

/-- INVARIANT: the base mutex is lawful, whoever holds it has counted it, and each fibre is in its place. -/
structure Inv {F : Type} {B : BaseMutex F} (s : State B) : Prop where
  base : B.Inv s.base
  others : ∀ f, s.phase f ≠ .holding → s.acquires f = s.releases f
  counted : ∀ f, s.phase f = .holding → s.counter + s.releases f = s.acquires f
  free : (∀ f, s.phase f ≠ .holding) → s.counter = 0
  bound : s.counter < 2 ^ 64
  place : ∀ f, Place s f (s.pc f)
  events : ∀ e ∈ s.events, e.Lawful

section Steps
variable {F : Type} {B : BaseMutex F} {s s' : State B} {f g : F} {p : Pc}

theorem Inv.owner (h : Inv s) (hf : s.phase f = .holding) : s.owner = some f :=
  B.holding s.base f h.base hf

theorem Inv.exclusive (h : Inv s) (hf : s.phase f = .holding) (hg : s.phase g = .holding) : f = g :=
  Option.some.inj ((h.owner hf).symm.trans (h.owner hg))

theorem Inv.correct (h : Inv s) : Correct s where
  exclusive _ _ := h.exclusive
  owner _ := h.owner
  balance f := by
    by_cases hf : s.phase f = .holding
    · have hcounted := h.counted f hf
      omega
    · exact (h.others f hf).ge
  counter f hf := by
    have hcounted := h.counted f hf
    rw [State.depth]
    omega
  others f hf := by
    rw [State.depth, h.others f hf, Nat.sub_self]
  free := h.free
  zero hzero f hf := by
    have hplace := h.place f
    cases hpc : s.pc f <;> rw [hpc] at hplace
    case acquiring | counting | freeing => rfl
    case out =>
      rcases hplace with hout | ⟨-, hpos⟩
      · rw [hf] at hout
        cases hout
      · omega
    case testing mode =>
      rcases hplace.1 with hout | ⟨-, hpos⟩
      · rw [hf] at hout
        cases hout
      · omega
    case entering mode =>
      have hout := hplace.1
      rw [hf] at hout
      cases hout
    case freed => rcases hplace with hp | hp <;> rw [hf] at hp <;> cases hp
  events := h.events

theorem place_same (hphase : s'.phase f = s.phase f) (hcounter : s'.counter = s.counter)
    (howner : s'.owner = s.owner) (hchanged : s'.changed f = s.changed f) (h : Place s f p) :
    Place s' f p := by
  cases p <;> simp only [Place] at h ⊢ <;> rw [hphase] <;> first
    | exact h
    | (rw [hcounter]; exact h)
    | (rw [hchanged]; exact h)
    | (rw [hcounter, hchanged]; exact h)
    | (rw [hcounter, hchanged, howner]; exact h)

/-- Who does not hold the base mutex does not mind what `counter` is. -/
theorem place_other (hphase : s'.phase f = s.phase f) (hnot : s.phase f ≠ .holding)
    (howner : s'.owner = s.owner) (hchanged : s'.changed f = s.changed f) (h : Place s f p) :
    Place s' f p := by
  cases p <;> simp only [Place] at h ⊢ <;> rw [hphase]
  case out => exact .inl (h.resolve_right fun hf => hnot hf.1)
  case testing mode =>
    rw [hchanged]
    exact ⟨.inl (h.1.resolve_right fun hf => hnot hf.1), h.2⟩
  case entering mode =>
    rw [hchanged]
    exact h
  case acquiring =>
    rw [hchanged, howner]
    exact ⟨h.1, fun hf => absurd hf hnot, h.2.2⟩
  case counting => exact h
  case freeing => exact absurd h.1 hnot
  case freed => exact h

section Goes
variable {p q : Phase}

theorem goes_holding (h : Phase.goes .holding q = true) : q = .holding := by
  cases q <;> first | rfl | cases h

theorem goes_outside (h : Phase.goes .outside q = true) : q = .outside := by
  cases q <;> first | rfl | cases h

theorem goes_releasing (h : Phase.goes .releasing q = true) : q = .releasing ∨ q = .outside := by
  cases q <;> first | exact .inl rfl | exact .inr rfl | cases h

theorem goes_to_holding (h : p.goes .holding = true) : p = .holding ∨ p = .acquiring := by
  cases p <;> first | exact .inl rfl | exact .inr rfl | cases h

theorem goes_to_releasing (h : p.goes .releasing = true) : p = .releasing := by
  cases p <;> first | rfl | cases h

end Goes

variable [DecidableEq F]

/-! ### Every step -/

/-- A fibre goes on, and neither `counter` nor the base mutex changes. -/
theorem Inv.move (h : Inv s) (hsame : s'.base = s.base ∧ s'.counter = s.counter ∧
      s'.acquires = s.acquires ∧ s'.releases = s.releases)
    (hpc : s'.pc = Function.update s.pc f p) (hchanged : ∀ g, g ≠ f → s'.changed g = s.changed g)
    (hplace : Place s' f p) (hevents : ∀ e ∈ s'.events, e.Lawful) : Inv s' := by
  obtain ⟨hbase, hcounter, hacquires, hreleases⟩ := hsame
  have hphase : ∀ g, s'.phase g = s.phase g := fun g => by rw [State.phase, State.phase, hbase]
  have howner : s'.owner = s.owner := by rw [State.owner, State.owner, hbase]
  refine ⟨hbase ▸ h.base, ?_, ?_, ?_, hcounter ▸ h.bound, ?_, hevents⟩
  · intro g hg
    rw [hacquires, hreleases]
    exact h.others g (hphase g ▸ hg)
  · intro g hg
    rw [hcounter, hacquires, hreleases]
    exact h.counted g (hphase g ▸ hg)
  · intro hnone
    rw [hcounter]
    exact h.free fun g hg => hnone g ((hphase g).trans hg)
  · intro g
    rw [hpc]
    rcases eq_or_ne g f with rfl | hgf
    · rw [Function.update_self]
      exact hplace
    · rw [Function.update_of_ne hgf]
      exact place_same (hphase g) hcounter howner (hchanged g hgf) (h.place g)

omit [DecidableEq F] in
theorem events_concat {es : List (Event F)} {e : Event F} (h : ∀ e' ∈ es, e'.Lawful) (he : e.Lawful) :
    ∀ e' ∈ es ++ [e], e'.Lawful := by
  intro e' he'
  rw [List.mem_append, List.mem_singleton] at he'
  rcases he' with hold | rfl
  · exact h e' hold
  · exact he

/-- If the `internalAcquire` of a fibre has changed `owner`, then to the fibre itself. -/
theorem Inv.owner_changed (h : Inv s) {a : B.Action} {b : B.State} (hs : B.step s.base a = some b)
    (hnot : s.phase f ≠ .releasing) (hmine : s.changed f = true → s.owner = some f)
    (hchanged : (s.setBase (B.actor a) b).changed f = true) : B.owner b = some f := by
  have hkept : s.owner = some f → B.owner b = some f := by
    intro howner
    cases hphase : s.phase f with
    | outside => exact absurd howner (B.outside s.base f h.base hphase)
    | acquiring => exact B.step_keeps s.base a b h.base hs f hphase howner
    | holding =>
      have hgo : (s.phase f).goes (B.phase b f) = true := B.step_phase s.base a b h.base hs f
      rw [hphase] at hgo
      exact B.holding b f (B.step_inv s.base a b h.base hs) (goes_holding hgo)
    | releasing => exact absurd hphase hnot
  rcases eq_or_ne f (B.actor a) with rfl | hf
  · have hacq : s.phase (B.actor a) = .acquiring := (B.step_actor s.base a b hs).resolve_right hnot
    simp only [State.setBase, Function.update_self, Bool.or_eq_true, decide_eq_true_eq] at hchanged
    rcases hchanged with hold | hdiffers
    · exact hkept (hmine hold)
    · exact (B.step_mine s.base a b h.base hs hacq).resolve_left hdiffers
  · simp only [State.setBase, Function.update_of_ne hf] at hchanged
    exact hkept (hmine hchanged)

/-- STEP: a step inside a call of the base mutex. -/
theorem Inv.stepBase (h : Inv s) {a : B.Action} {b : B.State} (hs : B.step s.base a = some b) :
    Inv (s.setBase (B.actor a) b) := by
  have hbase := B.step_inv s.base a b h.base hs
  have hgoes : ∀ f, (s.phase f).goes (B.phase b f) = true := B.step_phase s.base a b h.base hs
  have hstays : ∀ f, s.phase f = .holding → B.phase b f = .holding := by
    intro f hf
    have hgo := hgoes f
    rw [hf] at hgo
    exact goes_holding hgo
  -- whoever comes to hold the mutex has found it free
  have hnew : ∀ f, B.phase b f = .holding → s.phase f = .holding ∨
      s.phase f = .acquiring ∧ s.counter = 0 := by
    intro f hf
    have hgo := hgoes f
    rw [hf] at hgo
    refine (goes_to_holding hgo).imp_right fun hacq => ⟨hacq, h.free fun g hg => ?_⟩
    have howner := B.holding b f hbase hf
    rw [B.holding b g hbase (hstays g hg), Option.some.injEq] at howner
    rw [howner, hacq] at hg
    cases hg
  refine ⟨hbase, ?_, ?_, ?_, h.bound, ?_, h.events⟩
  · intro f hf
    exact h.others f fun hold => hf (hstays f hold)
  · intro f hf
    rcases hnew f hf with hold | ⟨hacq, hzero⟩
    · exact h.counted f hold
    · have hothers := h.others f (by rw [hacq]; simp)
      change s.counter + s.releases f = s.acquires f
      omega
  · intro hnone
    exact h.free fun f hf => hnone f (hstays f hf)
  · intro f
    have hplace := h.place f
    have hgo := hgoes f
    change Place _ f (s.pc f)
    -- a fibre that is not in a call of the base mutex makes no step of it
    have hchanged : s.phase f = .outside ∨ s.phase f = .holding →
        (s.setBase (B.actor a) b).changed f = s.changed f := by
      intro hnot
      refine Function.update_of_ne ?_ ..
      rintro rfl
      rcases B.step_actor s.base a b hs with hp | hp <;> rcases hnot with hnot | hnot <;>
        exact absurd (hnot.symm.trans hp) (by simp)
    have houtside : s.phase f = .outside → B.phase b f = .outside := by
      intro hout
      rw [hout] at hgo
      exact goes_outside hgo
    cases hpc : s.pc f <;> rw [hpc] at hplace
    case out => exact hplace.imp houtside fun hf => ⟨hstays f hf.1, hf.2⟩
    case testing mode =>
      refine ⟨hplace.1.imp houtside fun hf => ⟨hstays f hf.1, hf.2⟩, ?_⟩
      rw [hchanged (hplace.1.imp_right And.left)]
      exact hplace.2
    case entering mode =>
      exact ⟨houtside hplace.1, (hchanged (.inl hplace.1)).trans hplace.2⟩
    case acquiring =>
      obtain ⟨hnot, hzero, hmine⟩ := hplace
      refine ⟨fun hrel => ?_, fun hf => (hnew f hf).elim hzero And.right, fun hch => ?_⟩
      · have hgo' : (s.phase f).goes (B.phase b f) = true := hgo
        rw [show B.phase b f = .releasing from hrel] at hgo'
        exact hnot (goes_to_releasing hgo')
      · exact h.owner_changed hs hnot hmine hch
    case counting => exact hstays f hplace
    case freeing => exact ⟨hstays f hplace.1, hplace.2⟩
    case freed =>
      rcases hplace with hrel | hout
      · rw [hrel] at hgo
        exact goes_releasing hgo
      · exact .inr (houtside hout)

/-- STEP: `internalAcquire` goes past its assertion. -/
theorem Inv.enter (h : Inv s) {mode : Mode} (hpc : s.pc f = .entering mode) {b : B.State}
    (hs : B.acquire s.base f mode = some b) : Inv ((s.setBase f b).goto f .acquiring) := by
  obtain ⟨hout, hacq, howner, hrest⟩ := B.acquire_phase s.base f mode b hs
  have hplace := h.place f
  rw [hpc] at hplace
  have hholding : ∀ g, B.phase b g = .holding ↔ s.phase g = .holding := by
    intro g
    rcases eq_or_ne g f with rfl | hg
    · rw [hacq, State.phase, hout]
      simp
    · rw [hrest g hg]
      rfl
  refine ⟨B.acquire_inv s.base f mode b h.base hs, ?_, ?_, ?_, h.bound, ?_, h.events⟩
  · exact fun g hg => h.others g fun hold => hg ((hholding g).mpr hold)
  · exact fun g hg => h.counted g ((hholding g).mp hg)
  · exact fun hnone => h.free fun g hg => hnone g ((hholding g).mpr hg)
  · intro g
    rcases eq_or_ne g f with rfl | hg
    · have hnew : ((s.setBase g b).goto g .acquiring).pc g = .acquiring := Function.update_self ..
      have hchanged : ((s.setBase g b).goto g .acquiring).changed g = false := by
        simp [State.setBase, State.goto, howner, hplace.2]
      rw [hnew]
      refine ⟨?_, ?_, fun hch => ?_⟩
      · exact fun hrel => absurd (hacq.symm.trans hrel) (by simp)
      · exact fun hhold => absurd (hacq.symm.trans hhold) (by simp)
      · rw [hchanged] at hch
        cases hch
    · have hold : ((s.setBase f b).goto f .acquiring).pc g = s.pc g := Function.update_of_ne hg ..
      rw [hold]
      refine place_same (hrest g hg) rfl howner ?_ (h.place g)
      exact Function.update_of_ne hg ..

/-- STEP: the base mutex is released. -/
theorem Inv.freeBase (h : Inv s) (hpc : s.pc f = .freeing) {b : B.State}
    (hs : B.release s.base f = some b) : Inv ((s.setBase f b).goto f .freed) := by
  obtain ⟨hhold, hrel, hrest⟩ := B.release_phase s.base f b h.base hs
  have hplace := h.place f
  rw [hpc] at hplace
  obtain ⟨-, hzero⟩ := hplace
  have hnone : ∀ g, B.phase b g ≠ .holding := by
    intro g hg
    rcases eq_or_ne g f with rfl | hgf
    · rcases hrel with hrel | hrel <;> rw [hg] at hrel <;> cases hrel
    · rw [hrest g hgf] at hg
      exact hgf (h.exclusive hg hhold)
  refine ⟨B.release_inv s.base f b h.base hs, ?_, fun g hg => absurd hg (hnone g), fun _ => hzero,
    h.bound, ?_, h.events⟩
  · intro g _
    by_cases hg : s.phase g = .holding
    · have hcounted := h.counted g hg
      change s.acquires g = s.releases g
      omega
    · exact h.others g hg
  · intro g
    rcases eq_or_ne g f with rfl | hgf
    · have hnew : ((s.setBase g b).goto g .freed).pc g = .freed := Function.update_self ..
      rw [hnew]
      exact hrel
    · have hold : ((s.setBase f b).goto f .freed).pc g = s.pc g := Function.update_of_ne hgf ..
      have hphase : ((s.setBase f b).goto f .freed).phase g = s.phase g := hrest g hgf
      have hchanged : ((s.setBase f b).goto f .freed).changed g = s.changed g :=
        Function.update_of_ne hgf ..
      have hnot : s.phase g ≠ .holding := fun hg => hgf (h.exclusive hg hhold)
      have hplace := h.place g
      rw [hold]
      cases hq : s.pc g <;> rw [hq] at hplace <;> simp only [Place] at hplace ⊢ <;> rw [hphase]
      case out => exact hplace
      case testing mode =>
        rw [hchanged]
        exact hplace
      case entering mode =>
        rw [hchanged]
        exact hplace
      case acquiring =>
        rw [hchanged]
        refine ⟨hplace.1, fun hg => absurd hg hnot, fun hch => ?_⟩
        -- the owner was `f`, and not `g`
        have howner := hplace.2.2 hch
        rw [h.owner hhold, Option.some.injEq] at howner
        exact absurd howner.symm hgf
      case counting => exact hplace
      case freeing => exact hplace
      case freed => exact hplace

/-- STEP: `++counter`. -/
theorem Inv.count (h : Inv s) (hpc : s.pc f = .counting) (hroom : s.counter + 1 ≠ 2 ^ 64) :
    Inv (s.count f) := by
  have hhold : s.phase f = .holding := by
    have hplace := h.place f
    rw [hpc] at hplace
    exact hplace
  have hbound := h.bound
  have hcounter : (s.count f).counter = s.counter + 1 := word_of_lt (by omega)
  have hcounted := h.counted f hhold
  refine ⟨h.base, ?_, ?_, fun hnone => absurd hhold (hnone f), ?_, ?_, ?_⟩
  · intro g hg
    have hgf : g ≠ f := by
      rintro rfl
      exact hg hhold
    exact (Function.update_of_ne hgf ..).trans (h.others g hg)
  · intro g hg
    obtain rfl := h.exclusive hg hhold
    rw [hcounter]
    simp only [State.count, State.returns, State.goto, Function.update_self]
    omega
  · rw [hcounter]
    omega
  · intro g
    rcases eq_or_ne g f with rfl | hgf
    · have hnew : (s.count g).pc g = .out := Function.update_self ..
      rw [hnew]
      exact .inr ⟨hhold, by rw [hcounter]; exact Nat.succ_pos _⟩
    · have hold : (s.count f).pc g = s.pc g := Function.update_of_ne hgf ..
      have hnot : s.phase g ≠ .holding := fun hg => hgf (h.exclusive hg hhold)
      rw [hold]
      refine place_other ?_ hnot ?_ ?_ (h.place g) <;> rfl
  · have hlawful : (Event.acquired f (word (s.counter + 1))
        (Function.update s.acquires f (s.acquires f + 1) f - s.releases f)).Lawful := by
      rw [word_of_lt (by omega), Function.update_self]
      exact ⟨by omega, Nat.succ_pos _⟩
    exact events_concat h.events hlawful

/-- STEP: `--counter`. -/
theorem Inv.uncount (h : Inv s) (hpc : s.pc f = .out) (hmore : s.releases f < s.acquires f) :
    Inv (s.uncount f) := by
  have hhold : s.phase f = .holding := by
    by_contra hnot
    have hothers := h.others f hnot
    omega
  have hcounted := h.counted f hhold
  have hbound := h.bound
  have hless : minus s.counter 1 = s.counter - 1 := by
    rw [minus, word]
    omega
  -- the two ways on differ in where the fibre is, and in what has been returned
  suffices hgo : ∀ (p : Pc) (es : List (Event F)), (∀ e ∈ es, e.Lawful) →
      (p = .out ∧ 0 < minus s.counter 1 ∨ p = .freeing ∧ minus s.counter 1 = 0) →
      Inv ({ s with
        counter := minus s.counter 1
        releases := Function.update s.releases f (s.releases f + 1)
        events := es
        pc := Function.update s.pc f p } : State B) by
    rw [State.uncount]
    dsimp only
    split_ifs with hpos
    · have hlawful : (Event.released f (minus s.counter 1)
          (s.acquires f - Function.update s.releases f (s.releases f + 1) f) false).Lawful := by
        rw [Function.update_self]
        exact ⟨by omega, iff_of_false Bool.false_ne_true (by omega)⟩
      exact hgo .out _ (events_concat h.events hlawful) (.inl ⟨rfl, hpos⟩)
    · exact hgo .freeing s.events h.events (.inr ⟨rfl, Nat.eq_zero_of_not_pos hpos⟩)
  intro p es hes hp
  refine ⟨h.base, ?_, ?_, fun hnone => absurd hhold (hnone f), ?_, ?_, hes⟩
  · intro g hg
    have hgf : g ≠ f := by
      rintro rfl
      exact hg hhold
    exact (h.others g hg).trans (Function.update_of_ne hgf ..).symm
  · intro g hg
    obtain rfl := h.exclusive hg hhold
    simp only [Function.update_self]
    omega
  · simp only
    omega
  · intro g
    rcases eq_or_ne g f with rfl | hgf
    · simp only [Function.update_self]
      rcases hp with ⟨rfl, hpos⟩ | ⟨rfl, hzero⟩
      · exact .inr ⟨hhold, hpos⟩
      · exact ⟨hhold, hzero⟩
    · simp only [Function.update_of_ne hgf]
      have hnot : s.phase g ≠ .holding := fun hg => hgf (h.exclusive hg hhold)
      refine place_other ?_ hnot ?_ ?_ (h.place g) <;> rfl

theorem inv_step (h : Inv s) {a : Action B} (hroom : overflows s a = false)
    (hs : step s a = some s') : Inv s' := by
  cases a with
  | acquire f mode =>
    obtain ⟨hpc, hs⟩ := Option.ite_none_right_eq_some.mp hs
    obtain rfl := Option.some.inj hs
    have hplace := h.place f
    rw [hpc] at hplace
    refine h.move ⟨rfl, rfl, rfl, rfl⟩ rfl (fun g hg => ?_) ⟨hplace, ?_⟩ h.events
    · exact Function.update_of_ne hg ..
    · exact Function.update_self ..
  | test f =>
    simp only [step] at hs
    split at hs
    · rename_i mode hpc
      obtain rfl := Option.some.inj hs
      have hplace := h.place f
      rw [hpc] at hplace
      refine h.move ⟨rfl, rfl, rfl, rfl⟩ rfl (fun _ _ => rfl) ?_ h.events
      split_ifs with howner
      · refine (hplace.1.resolve_left fun hout => ?_).1
        exact B.outside s.base f h.base hout howner
      · exact ⟨hplace.1.resolve_right fun hf => howner (h.owner hf.1), hplace.2⟩
    · cases hs
  | enter f =>
    simp only [step] at hs
    split at hs
    · rename_i mode hpc
      split_ifs at hs
      obtain ⟨b, hb, rfl⟩ := Option.map_eq_some_iff.mp hs
      exact h.enter hpc hb
    · cases hs
  | base a =>
    obtain ⟨b, hb, rfl⟩ := Option.map_eq_some_iff.mp hs
    exact h.stepBase hb
  | won f =>
    obtain ⟨⟨hpc, hhold⟩, hs⟩ := Option.ite_none_right_eq_some.mp hs
    obtain rfl := Option.some.inj hs
    exact h.move ⟨rfl, rfl, rfl, rfl⟩ rfl (fun _ _ => rfl) hhold h.events
  | lost f =>
    obtain ⟨⟨hpc, hout⟩, hs⟩ := Option.ite_none_right_eq_some.mp hs
    obtain rfl := Option.some.inj hs
    have hplace := h.place f
    rw [hpc] at hplace
    have hlawful : (Event.failed f 0 (s.changed f)).Lawful := by
      refine ⟨rfl, Bool.eq_false_iff.mpr fun hchanged => ?_⟩
      exact B.outside s.base f h.base hout (hplace.2.2 hchanged)
    exact h.move ⟨rfl, rfl, rfl, rfl⟩ rfl (fun _ _ => rfl) (.inl hout) (events_concat h.events hlawful)
  | count f =>
    obtain ⟨hpc, hs⟩ := Option.ite_none_right_eq_some.mp hs
    obtain rfl := Option.some.inj hs
    exact h.count hpc (of_decide_eq_false hroom)
  | release f =>
    obtain ⟨⟨hpc, hmore⟩, hs⟩ := Option.ite_none_right_eq_some.mp hs
    obtain rfl := Option.some.inj hs
    exact h.uncount hpc hmore
  | free f =>
    obtain ⟨hpc, hs⟩ := Option.ite_none_right_eq_some.mp hs
    obtain ⟨b, hb, rfl⟩ := Option.map_eq_some_iff.mp hs
    exact h.freeBase hpc hb
  | done f =>
    obtain ⟨⟨hpc, hout⟩, hs⟩ := Option.ite_none_right_eq_some.mp hs
    obtain rfl := Option.some.inj hs
    have hdepth : s.depth f = 0 := by
      rw [State.depth, h.others f (by rw [hout]; simp), Nat.sub_self]
    have hlawful : (Event.released f 0 (s.depth f) true).Lawful := ⟨hdepth.symm, iff_of_true rfl hdepth⟩
    exact h.move ⟨rfl, rfl, rfl, rfl⟩ rfl (fun _ _ => rfl) (.inl hout) (events_concat h.events hlawful)

omit [DecidableEq F] in
theorem inv_start : Inv (start : State B) where
  base := B.start_inv
  others _ _ := rfl
  counted f hf := by
    have hout := B.start_phase f
    rw [show B.phase B.start f = .holding from hf] at hout
    cases hout
  free _ := rfl
  bound := Nat.two_pow_pos 64
  place f := .inl (B.start_phase f)
  events _ he := by cases he

/-- The mutex counts its owner's acquires, in every state of every run in which nobody acquires it 2^64
    times more often than it releases it. -/
theorem owner_mutex {as : List (Action B)} {s : State B}
    (hrun : Run (ownerMutex B) (Avoids overflows) as s) : Correct s := by
  have hinv : Inv s := by
    refine hrun.inv (I := Inv) ?_ ?_
    · intro s hs
      subst hs
      exact inv_start
    · intro s a s' h hroom hs
      exact inv_step h hroom hs
  exact hinv.correct

end Steps

/-- Two fibres: one acquires the mutex twice and releases it twice, the other tries in between. -/
def twice : List (Action (spinSemMutex Bool)) :=
  [.acquire true .plain, .test true, .enter true, .base (.tryLock true false), .won true, .count true,
    .acquire true .trying, .test true, .count true,
    .acquire false .trying, .test false, .enter false, .base (.tryLock false false), .lost false,
    .release true, .release true, .free true, .base (.semV true), .done true]

theorem owner_mutex_twice : ∃ s : State (spinSemMutex Bool),
    s.events = [.acquired true 1 1, .acquired true 2 2, .failed false 0 false, .released true 1 1 false,
      .released true 0 0 true] ∧ Correct s := by
  have he : (execAvoiding (ownerMutex (spinSemMutex Bool)) overflows start twice).map (fun s =>
        decide (s.events = [.acquired true 1 1, .acquired true 2 2, .failed false 0 false,
          .released true 1 1 false, .released true 0 0 true])) = some true := by
    decide
  obtain ⟨s, hrun, hevents⟩ := run_of_execAvoiding _ _ start twice _ rfl he
  exact ⟨s, of_decide_eq_true hevents, owner_mutex hrun⟩

/-! ### Where `counter` is not the depth -/

section Deep

/-- Fibre `true` has acquired the mutex `n` times. -/
structure Deep (s : State (spinSemMutex Bool)) (n : ℕ) : Prop where
  reach : Reach (ownerMutex (spinSemMutex Bool)) s
  out : s.pc true = .out
  owner : s.owner = some true
  counter : s.counter = word n

theorem deep_one : ∃ s, Deep s 1 := by
  have he : (exec (ownerMutex (spinSemMutex Bool)) start (twice.take 6)).map (fun s =>
      decide (s.pc true = .out ∧ s.owner = some true ∧ s.counter = word 1)) = some true := by decide
  obtain ⟨s, hr, hs⟩ := reach_of_exec _ start _ _ rfl he
  obtain ⟨hout, howner, hcounter⟩ := of_decide_eq_true hs
  exact ⟨s, hr, hout, howner, hcounter⟩

/-- It acquires it once more. -/
theorem Deep.next {s : State (spinSemMutex Bool)} {n : ℕ} (h : Deep s n) : ∃ s' d, Deep s' (n + 1) ∧
    Event.acquired true (word (n + 1)) d ∈ s'.events := by
  have hcall : (ownerMutex (spinSemMutex Bool)).step s (.acquire true .plain) =
      some (State.goto { s with changed := Function.update s.changed true false } true
        (.testing .plain)) := by
    simp [ownerMutex, step, h.out]
  generalize hs₁ : State.goto { s with changed := Function.update s.changed true false } true
    (.testing .plain) = s₁ at hcall
  have hpc₁ : s₁.pc true = .testing .plain := by
    rw [← hs₁]
    exact Function.update_self true (Pc.testing .plain) s.pc
  have howner₁ : s₁.owner = some true := by rw [← hs₁]; exact h.owner
  have hcounter₁ : s₁.counter = word n := by rw [← hs₁]; exact h.counter
  have htest : (ownerMutex (spinSemMutex Bool)).step s₁ (.test true) = some (s₁.goto true .counting) := by
    simp [ownerMutex, step, hpc₁, howner₁]
  have hcount : (ownerMutex (spinSemMutex Bool)).step (s₁.goto true .counting) (.count true) =
      some ((s₁.goto true .counting).count true) := by
    simp [ownerMutex, step, State.goto]
  have hword : word ((s₁.goto true .counting).counter + 1) = word (n + 1) := by
    change word (s₁.counter + 1) = word (n + 1)
    rw [hcounter₁, word_succ]
  have hevent : ∃ d, Event.acquired true (word (n + 1)) d ∈ ((s₁.goto true .counting).count true).events := by
    rw [← hword]
    exact ⟨_, List.mem_append_right _ List.mem_cons_self⟩
  obtain ⟨d, hevent⟩ := hevent
  refine ⟨_, d, ⟨((h.reach.step hcall).step htest).step hcount, ?_, howner₁, hword⟩, hevent⟩
  exact Function.update_self true Pc.out (s₁.goto true .counting).pc

theorem deep (n : ℕ) : ∃ s, Deep s (n + 1) := by
  induction n with
  | zero => exact deep_one
  | succ n ih =>
    obtain ⟨s, h⟩ := ih
    obtain ⟨s', -, h', -⟩ := h.next
    exact ⟨s', h'⟩

end Deep

/-- A fibre that has the base mutex has not counted it yet; and the 2^64th `acquire` in a row returns 0. -/
theorem counts_late :
    (¬ ∀ s : State (spinSemMutex Bool), Reach (ownerMutex (spinSemMutex Bool)) s →
      (s.counter = 0 ↔ ∀ f, s.phase f ≠ .holding)) ∧
    ¬ ∀ s : State (spinSemMutex Bool), Reach (ownerMutex (spinSemMutex Bool)) s →
      ∀ e ∈ s.events, e.Lawful := by
  constructor
  · intro hall
    have he : (exec (ownerMutex (spinSemMutex Bool)) start (twice.take 4)).map (fun s =>
        decide (s.counter = 0 ∧ s.phase true = .holding)) = some true := by decide
    obtain ⟨s, hr, hs⟩ := reach_of_exec _ start _ _ rfl he
    obtain ⟨hzero, hhold⟩ := of_decide_eq_true hs
    exact (hall s hr).mp hzero true hhold
  · intro hall
    obtain ⟨s, h⟩ := deep (2 ^ 64 - 2)
    obtain ⟨s', d, h', hevent⟩ := h.next
    have hlawful := hall s' h'.reach _ hevent
    have hfull : word (2 ^ 64 - 2 + 1 + 1) = 0 := by decide
    rw [hfull] at hlawful
    exact Nat.lt_irrefl 0 hlawful.2

end Libfibre.OwnerMutex
