import Libfibre.Schemes.Transition
import Mathlib.Tactic.Linarith
import Libfibre.Schemes.Threads

/-! `SpinCondMutex` (`BlockingSync.h`) without its queue: `value` (0 free, 1 locked, 2 locked with
    waiters), `owner`, and where each fibre is. The queue is a template parameter of the source; here
    `B` are the places inside its `block` and `U` those inside its `unblock`. Every atomic operation
    on `value` and every write of `owner` is one step.

        acquire ──▶ lock1 ──▶ lock2 ──▶ block ──▶ relock ──▶ block ──▶ ...
                      │         │                   │
                      └─────────┴─────────┬─────────┘
                                          ▼
                       owning ──▶ holder ──▶ disowned ──▶ unblock

    At most one fibre is in the lower row up to `disowned`, whatever the queue does. -/

namespace Libfibre.SpinCondMutex
open Transition Threads

/-- The template parameters `SpinStart`, `SpinEnd`, `SpinCount` and `YieldCount`. -/
structure Spins where
  spinStart : ℕ
  spinEnd : ℕ
  spinCount : ℕ
  yieldCount : ℕ

/-- How a call of `acquire` is prepared to wait: for ever, or up to a timeout. -/
inductive Mode where
  | plain
  | timed
  deriving DecidableEq

/-- Where a fibre is, between two steps. -/
inductive Pc (B U : Type) where
  | out
  | tryOnly
  | lock1 (mode : Mode) (spin : ℕ)
  | lock2 (mode : Mode) (spin scnt ycnt : ℕ)
  | block (mode : Mode) (b : B)
  | relock (mode : Mode)
  | owning
  | holder
  | disowned
  | unblock (u : U)
  deriving DecidableEq

structure Core (F B U : Type) where
  value : ℕ
  owner : Option F
  pc : F → Pc B U

/-- Between a successful acquire and the end of its release. -/
def Pc.critical {B U : Type} : Pc B U → Bool
  | .owning | .holder | .disowned => true
  | _ => false

variable {F B U : Type} [DecidableEq F]

def Core.goto (c : Core F B U) (f : F) (p : Pc B U) : Core F B U :=
  { c with pc := Function.update c.pc f p }

/-- `tryLock1`: where `f` goes on failure depends on the value found. -/
def tryLock1 (c : Core F B U) (f : F) (fail : ℕ → Pc B U) : Core F B U :=
  if c.value = 0 then Core.goto { c with value := 1 } f .owning else c.goto f (fail c.value)

/-- `tryLock2`: the value becomes 2 in any case. -/
def tryLock2 (c : Core F B U) (f : F) (fail : Pc B U) : Core F B U :=
  Core.goto { c with value := 2 } f (if c.value = 0 then .owning else fail)

/-- One more round with `tryLock1`, or on to `Spin`. -/
def round1 (P : Spins) (mode : Mode) (spin value : ℕ) : Pc B U :=
  if value ≠ 2 ∧ spin < P.spinEnd then .lock1 mode (spin + spin) else .lock2 mode P.spinStart 0 0

/-- `Spin`: one more round with `tryLock2`, or on to the queue. -/
def round2 (P : Spins) (enter : Mode → B) (mode : Mode) (spin scnt ycnt : ℕ) : Pc B U :=
  if scnt < P.spinCount then
    if spin < P.spinEnd then .lock2 mode (spin + spin) scnt ycnt else .lock2 mode spin (scnt + 1) ycnt
  else if ycnt < P.yieldCount then .lock2 mode spin scnt (ycnt + 1)
  else .block mode (enter mode)

/-- `acquire` is called, without `wait == false`. -/
def acquire (P : Spins) (c : Core F B U) (f : F) (mode : Mode) : Option (Core F B U) :=
  match c.pc f with
  | .out => some (c.goto f (.lock1 mode P.spinStart))
  | _ => none

def tryAcquire (c : Core F B U) (f : F) : Option (Core F B U) :=
  match c.pc f with
  | .out => some (c.goto f .tryOnly)
  | _ => none

/-- `release` is called by the holder and clears `owner`. -/
def release (c : Core F B U) (f : F) : Option (Core F B U) :=
  match c.pc f with
  | .holder => some (Core.goto { c with owner := none } f .disowned)
  | _ => none

/-- The next step of a call outside the queue, whose `block` and `unblock` begin at `enter` and
    `leave`. -/
def next (P : Spins) (enter : Mode → B) (leave : U) (c : Core F B U) (f : F) :
    Option (Core F B U) :=
  match c.pc f with
  | .tryOnly => some (tryLock1 c f fun _ => .out)
  | .lock1 mode spin => some (tryLock1 c f (round1 P mode spin))
  | .lock2 mode spin scnt ycnt => some (tryLock2 c f (round2 P enter mode spin scnt ycnt))
  | .relock mode => some (tryLock2 c f (.block mode (enter mode)))
  | .owning => some (Core.goto { c with owner := some f } f .holder)
  | .disowned =>
    some (Core.goto { c with value := 0 } f (if c.value = 1 then .out else .unblock leave))
  | _ => none

def start : Core F B U := { value := 0, owner := none, pc := fun _ => .out }

/-! ### What a step does -/

@[simp] theorem goto_value (c : Core F B U) (f : F) (p : Pc B U) : (c.goto f p).value = c.value := rfl
@[simp] theorem goto_owner (c : Core F B U) (f : F) (p : Pc B U) : (c.goto f p).owner = c.owner := rfl
@[simp] theorem goto_pc (c : Core F B U) (f : F) (p : Pc B U) :
    (c.goto f p).pc = Function.update c.pc f p := rfl

/-- What a step of `f` can do to `value`, to `owner` and to the place of `f`. -/
inductive Did (c : Core F B U) (f : F) : Core F B U → Prop
  | moved {p : Pc B U} : (c.pc f).critical = false → p.critical = false → Did c f (c.goto f p)
  | locked {n : ℕ} : c.value = 0 → 0 < n → (c.pc f).critical = false →
      Did c f (Core.goto { c with value := n } f .owning)
  | contended {p : Pc B U} : c.value ≠ 0 → (c.pc f).critical = false → p.critical = false →
      Did c f (Core.goto { c with value := 2 } f p)
  | owned : c.pc f = .owning → Did c f (Core.goto { c with owner := some f } f .holder)
  | disowned : c.pc f = .holder → Did c f (Core.goto { c with owner := none } f .disowned)
  | freed {p : Pc B U} : c.pc f = .disowned → p.critical = false →
      Did c f (Core.goto { c with value := 0 } f p)

theorem did_tryLock1 {c : Core F B U} {f : F} {fail : ℕ → Pc B U} (hpc : (c.pc f).critical = false)
    (hfail : ∀ n, (fail n).critical = false) : Did c f (tryLock1 c f fail) := by
  rw [tryLock1]
  split_ifs with h
  · exact .locked h Nat.one_pos hpc
  · exact .moved hpc (hfail _)

theorem did_tryLock2 {c : Core F B U} {f : F} {fail : Pc B U} (hpc : (c.pc f).critical = false)
    (hfail : fail.critical = false) : Did c f (tryLock2 c f fail) := by
  rw [tryLock2]
  split_ifs with h
  · exact .locked h Nat.two_pos hpc
  · exact .contended h hpc hfail

theorem round1_critical (P : Spins) (mode : Mode) (spin value : ℕ) :
    (round1 P mode spin value : Pc B U).critical = false := by
  rw [round1]
  split_ifs <;> rfl

theorem round2_critical (P : Spins) (enter : Mode → B) (mode : Mode) (spin scnt ycnt : ℕ) :
    (round2 P enter mode spin scnt ycnt : Pc B U).critical = false := by
  rw [round2]
  split_ifs <;> rfl

theorem acquire_did {P : Spins} {c c' : Core F B U} {f : F} {mode : Mode}
    (h : acquire P c f mode = some c') :
    c.pc f = .out ∧ c' = c.goto f (.lock1 mode P.spinStart) := by
  rw [acquire] at h
  split at h
  · exact ⟨‹_›, (Option.some.inj h).symm⟩
  · cases h

theorem tryAcquire_did {c c' : Core F B U} {f : F} (h : tryAcquire c f = some c') :
    c.pc f = .out ∧ c' = c.goto f .tryOnly := by
  rw [tryAcquire] at h
  split at h
  · exact ⟨‹_›, (Option.some.inj h).symm⟩
  · cases h

theorem release_did {c c' : Core F B U} {f : F} (h : release c f = some c') :
    c.pc f = .holder ∧ c' = Core.goto { c with owner := none } f .disowned := by
  rw [release] at h
  split at h
  · exact ⟨‹_›, (Option.some.inj h).symm⟩
  · cases h

/-- Where the steps outside the queue start and end. -/
theorem next_did {P : Spins} {enter : Mode → B} {leave : U} {c c' : Core F B U} {f : F}
    (h : next P enter leave c f = some c') : Did c f c' := by
  rw [next] at h
  split at h <;> rename_i hpc <;> simp only [Option.some.injEq, reduceCtorEq] at h <;> subst h
  · exact did_tryLock1 (by rw [hpc]; rfl) fun _ => rfl
  · exact did_tryLock1 (by rw [hpc]; rfl) (round1_critical P _ _)
  · exact did_tryLock2 (by rw [hpc]; rfl) (round2_critical P enter _ _ _ _)
  · exact did_tryLock2 (by rw [hpc]; rfl) rfl
  · exact .owned hpc
  · exact .freed hpc (by split_ifs <;> rfl)

/-- What the queue sees of a step of `f` outside it. -/
structure Outside (enter : Mode → B) (leave : U) (c : Core F B U) (f : F) (c' : Core F B U) :
    Prop where
  others : ∀ g, g ≠ f → c'.pc g = c.pc g
  notBlocking : ∀ mode b, c.pc f ≠ .block mode b
  notUnblocking : ∀ u, c.pc f ≠ .unblock u
  enters : ∀ mode b, c'.pc f = .block mode b → b = enter mode
  leaves : ∀ u, c'.pc f = .unblock u → u = leave
  two : c.value = 2 → c'.value = 2 ∨ c'.pc f = .unblock leave
  relocked : ∀ mode, c.pc f = .relock mode → c'.value = 2

/-- A step of `f` outside the queue that neither takes the value from 2 nor starts at `relock`. -/
theorem outside_goto {enter : Mode → B} {leave : U} {c c' : Core F B U} {f : F} {p : Pc B U}
    (hpc : c'.pc = Function.update c.pc f p) (hb : ∀ mode b, c.pc f ≠ .block mode b)
    (hu : ∀ u, c.pc f ≠ .unblock u) (henter : ∀ mode b, p = .block mode b → b = enter mode)
    (hleave : ∀ u, p = .unblock u → u = leave)
    (htwo : c.value = 2 → c'.value = 2 ∨ p = .unblock leave)
    (hrelock : ∀ mode, c.pc f = .relock mode → c'.value = 2) : Outside enter leave c f c' := by
  have hp : c'.pc f = p := by rw [hpc, Function.update_self]
  refine ⟨fun g hg => by rw [hpc, Function.update_of_ne hg], hb, hu, ?_, ?_, ?_, hrelock⟩ <;> rw [hp]
  · exact henter
  · exact hleave
  · exact htwo

theorem acquire_outside {P : Spins} {enter : Mode → B} {leave : U} {c c' : Core F B U} {f : F}
    {mode : Mode} (h : acquire P c f mode = some c') : Outside enter leave c f c' := by
  obtain ⟨hpc, rfl⟩ := acquire_did h
  refine outside_goto rfl ?_ ?_ ?_ ?_ Or.inl ?_ <;> simp [hpc]

theorem tryAcquire_outside {enter : Mode → B} {leave : U} {c c' : Core F B U} {f : F}
    (h : tryAcquire c f = some c') : Outside enter leave c f c' := by
  obtain ⟨hpc, rfl⟩ := tryAcquire_did h
  refine outside_goto rfl ?_ ?_ ?_ ?_ Or.inl ?_ <;> simp [hpc]

theorem release_outside {enter : Mode → B} {leave : U} {c c' : Core F B U} {f : F}
    (h : release c f = some c') : Outside enter leave c f c' := by
  obtain ⟨hpc, rfl⟩ := release_did h
  refine outside_goto rfl ?_ ?_ ?_ ?_ Or.inl ?_ <;> simp [hpc]

theorem outside_tryLock1 {enter : Mode → B} {leave : U} {c : Core F B U} {f : F} {fail : ℕ → Pc B U}
    (hpc : (c.pc f = .tryOnly) ∨ ∃ mode spin, c.pc f = .lock1 mode spin)
    (hfail : ∀ n, fail n = .out ∨ (∃ mode spin, fail n = .lock1 mode spin) ∨
      ∃ mode spin, fail n = .lock2 mode spin 0 0) :
    Outside enter leave c f (tryLock1 c f fail) := by
  have hb : ∀ mode b, c.pc f ≠ .block mode b := by
    rcases hpc with hpc | ⟨_, _, hpc⟩ <;> simp [hpc]
  have hu : ∀ u, c.pc f ≠ .unblock u := by rcases hpc with hpc | ⟨_, _, hpc⟩ <;> simp [hpc]
  have hr : ∀ mode, c.pc f ≠ .relock mode := by rcases hpc with hpc | ⟨_, _, hpc⟩ <;> simp [hpc]
  rw [tryLock1]
  split_ifs with h0
  · refine outside_goto rfl hb hu (by simp) (by simp) (fun h => by omega)
      fun mode h => absurd h (hr mode)
  · refine outside_goto rfl hb hu ?_ ?_ Or.inl fun mode h => absurd h (hr mode) <;>
      rcases hfail c.value with h | ⟨_, _, h⟩ | ⟨_, _, h⟩ <;> simp [h]

theorem outside_tryLock2 {enter : Mode → B} {leave : U} {c : Core F B U} {f : F} {fail : Pc B U}
    (hb : ∀ mode b, c.pc f ≠ .block mode b) (hu : ∀ u, c.pc f ≠ .unblock u)
    (hfail : (∃ mode spin scnt ycnt, fail = .lock2 mode spin scnt ycnt) ∨
      ∃ mode, fail = .block mode (enter mode)) :
    Outside enter leave c f (tryLock2 c f fail) := by
  refine outside_goto rfl hb hu ?_ ?_ (fun _ => Or.inl rfl) (fun _ _ => rfl) <;> split_ifs <;>
    rcases hfail with ⟨_, _, _, _, h⟩ | ⟨_, h⟩ <;> simp [h]

theorem round1_cases (P : Spins) (mode : Mode) (spin value : ℕ) :
    (∃ mode' spin', (round1 P mode spin value : Pc B U) = .lock1 mode' spin') ∨
    ∃ mode' spin', (round1 P mode spin value : Pc B U) = .lock2 mode' spin' 0 0 := by
  rw [round1]
  split_ifs
  · exact Or.inl ⟨_, _, rfl⟩
  · exact Or.inr ⟨_, _, rfl⟩

theorem round2_cases (P : Spins) (enter : Mode → B) (mode : Mode) (spin scnt ycnt : ℕ) :
    (∃ mode' spin' scnt' ycnt',
      (round2 P enter mode spin scnt ycnt : Pc B U) = .lock2 mode' spin' scnt' ycnt') ∨
    ∃ mode', (round2 P enter mode spin scnt ycnt : Pc B U) = .block mode' (enter mode') := by
  rw [round2]
  split_ifs
  · exact Or.inl ⟨_, _, _, _, rfl⟩
  · exact Or.inl ⟨_, _, _, _, rfl⟩
  · exact Or.inl ⟨_, _, _, _, rfl⟩
  · exact Or.inr ⟨_, rfl⟩

theorem next_outside {P : Spins} {enter : Mode → B} {leave : U} {c c' : Core F B U} {f : F}
    (h : next P enter leave c f = some c') : Outside enter leave c f c' := by
  rw [next] at h
  split at h <;> rename_i hpc <;> simp only [Option.some.injEq, reduceCtorEq] at h <;> subst h
  · exact outside_tryLock1 (Or.inl hpc) fun _ => Or.inl rfl
  · exact outside_tryLock1 (Or.inr ⟨_, _, hpc⟩) fun n => Or.inr (round1_cases P _ _ n)
  · exact outside_tryLock2 (by simp [hpc]) (by simp [hpc]) (round2_cases P enter _ _ _ _)
  · exact outside_tryLock2 (by simp [hpc]) (by simp [hpc]) (Or.inr ⟨_, rfl⟩)
  · refine outside_goto rfl ?_ ?_ ?_ ?_ Or.inl ?_ <;> simp [hpc]
  · refine outside_goto rfl (by simp [hpc]) (by simp [hpc]) ?_ ?_ (fun h2 => Or.inr ?_) (by simp [hpc])
    · intro mode b
      split_ifs <;> simp
    · intro u
      split_ifs
      · simp
      · exact fun h => (Pc.unblock.inj h).symm
    · rw [if_neg (by omega)]

/-! ### Exclusion -/

/-- INVARIANT: `value` tells whether the mutex is taken, by one fibre, and `owner` names it while it
    holds the mutex. -/
structure Exclusive (c : Core F B U) : Prop where
  unique : ∀ f g, (c.pc f).critical = true → (c.pc g).critical = true → f = g
  free : c.value = 0 → ∀ f, (c.pc f).critical = false
  owner : ∀ f, c.owner = some f ↔ c.pc f = .holder

omit [DecidableEq F] in
theorem exclusive_start : Exclusive (start : Core F B U) := by
  constructor <;> simp [start, Pc.critical]

/-- STEP: whatever a step does to the core, the mutex stays exclusive. -/
theorem Did.exclusive {c c' : Core F B U} {f : F} (h : Did c f c') (hi : Exclusive c) :
    Exclusive c' := by
  have howner : ∀ {p : Pc B U}, c.pc f ≠ .holder → p ≠ .holder →
      ∀ g, c.owner = some g ↔ Function.update c.pc f p g = .holder := by
    intro p hf hp g
    exact (hi.owner g).trans (at_iff (iff_of_false hp hf) g).symm
  have hholder : ∀ {p : Pc B U}, p.critical = false → p ≠ .holder := by
    rintro p hp rfl; cases hp
  have hthere : (c.pc f).critical = true → c.value ≠ 0 := by
    intro hcrit h0
    rw [hi.free h0 f] at hcrit
    cases hcrit
  -- the other fibres' places do not change; `f` may get into the lower row if nobody else is there
  cases h with
  | moved hf hp =>
    exact ⟨leader_move hi.unique fun h => absurd h (by rw [hp]; simp),
      fun h0 => none_leads (fun g _ => hi.free h0 g) hp, howner (hholder hf) (hholder hp)⟩
  | locked h0 hn hf =>
    exact ⟨leader_move hi.unique fun _ g _ => hi.free h0 g, fun h => absurd h (by simp; omega),
      howner (hholder hf) (by simp)⟩
  | contended h0 hf hp =>
    exact ⟨leader_move hi.unique fun h => absurd h (by rw [hp]; simp), fun h => absurd h (by simp),
      howner (hholder hf) (hholder hp)⟩
  | owned hf =>
    have hcrit : (c.pc f).critical = true := by rw [hf]; rfl
    refine ⟨leader_move hi.unique fun _ _ hg => follows hi.unique hcrit hg,
      fun h0 => absurd h0 (hthere hcrit), fun g => ?_⟩
    rcases eq_or_ne g f with rfl | hg
    · simp
    · have := follows hi.unique hcrit hg
      simp only [Core.goto, Option.some.injEq, Function.update_of_ne hg]
      exact ⟨fun h => absurd h.symm hg, fun h => by rw [h] at this; cases this⟩
  | disowned hf =>
    have hcrit : (c.pc f).critical = true := by rw [hf]; rfl
    refine ⟨leader_move hi.unique fun _ _ hg => follows hi.unique hcrit hg,
      fun h0 => absurd h0 (hthere hcrit), fun g => ?_⟩
    rcases eq_or_ne g f with rfl | hg
    · simp
    · have := follows hi.unique hcrit hg
      simp only [Core.goto, Function.update_of_ne hg, reduceCtorEq, false_iff]
      exact fun h => by rw [h] at this; cases this
  | freed hf hp =>
    have hcrit : (c.pc f).critical = true := by rw [hf]; rfl
    exact ⟨leader_move hi.unique fun h => absurd h (by rw [hp]; simp),
      fun _ => none_leads (fun g hg => follows hi.unique hcrit hg) hp,
      howner (by rw [hf]; simp) (hholder hp)⟩

omit [DecidableEq F] in
/-- The assertions of `internalAcquire` and `release` hold. -/
theorem Exclusive.rassert {c : Core F B U} (hi : Exclusive c) :
    (∀ f, c.pc f = .out → c.owner ≠ some f) ∧ ∀ f, c.pc f = .holder → 0 < c.value := by
  refine ⟨fun f hf ho => ?_, fun f hf => ?_⟩
  · rw [hi.owner, hf] at ho; cases ho
  · by_contra h0
    have := hi.free (by omega) f
    rw [hf] at this; cases this

end Libfibre.SpinCondMutex
