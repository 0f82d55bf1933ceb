import Libfibre.Schemes.Transition
import Libfibre.Schemes.Tally
import Libfibre.Schemes.Threads

/-! `SpinLockRW` (`SpinLocks.h`): one word holds -1 for a writer, else the number of readers. Each read of
    `state` and each atomic instruction is one step, for any number of threads.

        out ─▶ loading ─(open)─▶ swapping ─(unchanged)─▶ has
                 ▲ │ held            │ changed
                 │ └────────┬────────┘
                 └──────────┴─▶ out (a single try)
        has ─▶ asserting ─▶ testing ─▶ adding / subbing ─▶ out

    A failing try of `acquireRead` or `acquireWrite` begins again; `release` finds out whether it gives
    up a write or a read by the sign of `state`. The number of threads is far below the range of
    `ssize_t`. -/

namespace Libfibre.SpinLockRW
open Transition Tally

/-- How the lock is held. -/
inductive Mode where
  | read
  | write
  deriving DecidableEq

/-- Where a thread is; `once` is for a single `tryAcquireRead` or `tryAcquireWrite`. -/
inductive Pc where
  | out
  | loading (m : Mode) (once : Bool)
  | swapping (m : Mode) (once : Bool) (s : ℤ)
  | has (m : Mode)
  | asserting (m : Mode)
  | testing (m : Mode)
  | adding (m : Mode)
  | subbing (m : Mode)
  deriving DecidableEq

/-- `state`, and where each thread is. -/
structure State (T : Type) where
  state : ℤ
  pc : T → Pc

/-- A call begins, or goes on by one access; `once`: a try. -/
inductive Action (T : Type) where
  | acquire (t : T) (m : Mode) (once : Bool)
  | release (t : T)
  | next (t : T)

/-- What `tryAcquireRead` and `tryAcquireWrite` ask of the value read. -/
def Mode.admits : Mode → ℤ → Bool
  | .read, s => decide (0 ≤ s)
  | .write, s => decide (s = 0)

/-- The value that they put in. -/
def Mode.entered : Mode → ℤ → ℤ
  | .read, s => s + 1
  | .write, s => s - 1

variable {T : Type} [DecidableEq T]

/-- Thread `t` goes to another place. -/
def State.goto (s : State T) (t : T) (p : Pc) : State T := { s with pc := Function.update s.pc t p }

/-- A try has failed. -/
def State.fail (s : State T) (t : T) (m : Mode) (once : Bool) : State T :=
  s.goto t (if once then .out else .loading m once)

/-- The next step of thread `t`; a failing assertion stops it. -/
def next (s : State T) (t : T) : Option (State T) :=
  match s.pc t with
  | .out | .has _ => none
  | .loading m once =>
    some (if m.admits s.state then s.goto t (.swapping m once s.state) else s.fail t m once)
  | .swapping m once v =>
    some (if s.state = v then State.goto { s with state := m.entered v } t (.has m) else s.fail t m once)
  | .asserting m => if s.state = 0 then none else some (s.goto t (.testing m))
  | .testing m => some (s.goto t (if s.state < 0 then .adding m else .subbing m))
  | .adding _ => some (State.goto { s with state := s.state + 1 } t .out)
  | .subbing _ => some (State.goto { s with state := s.state - 1 } t .out)

/-- One access of a call. -/
def step (s : State T) : Action T → Option (State T)
  | .acquire t m once => if s.pc t = .out then some (s.goto t (.loading m once)) else none
  | .release t =>
    match s.pc t with
    | .has m => some (s.goto t (.asserting m))
    | _ => none
  | .next t => next s t

/-- The free lock. -/
def State.init : State T := ⟨0, fun _ => .out⟩

/-- Any number of threads use the lock. -/
def system (T : Type) [DecidableEq T] : System (State T) (Action T) := ⟨fun s => s = .init, step⟩

/-! ### The invariant -/

/-- Holds the lock for `m`: from its successful swap to its last step in `release`. -/
def Pc.holds (m : Mode) : Pc → Bool
  | .has m' | .asserting m' | .testing m' | .adding m' | .subbing m' => decide (m' = m)
  | _ => false

/-- `release` is on its way to the instruction that its mode needs. -/
def Pc.right : Pc → Bool
  | .adding m => decide (m = .write)
  | .subbing m => decide (m = .read)
  | .swapping m _ s => m.admits s
  | _ => true

section Counts
variable [Fintype T]

/-- How many threads hold the lock for reading. -/
def State.readers (s : State T) : ℕ := tally (fun p => (p.holds .read).toNat) s.pc

/-- How many threads hold it for writing. -/
def State.writers (s : State T) : ℕ := tally (fun p => (p.holds .write).toNat) s.pc

/-- INVARIANT: `state` counts the readers, or there is one writer and no reader. -/
structure Inv (s : State T) : Prop where
  right : ∀ t, (s.pc t).right = true
  count : s.writers = 0 ∧ s.state = s.readers ∨ s.writers = 1 ∧ s.readers = 0 ∧ s.state = -1

variable {s s' : State T} {t u : T} {p : Pc} {a : Action T} {m : Mode}

theorem readers_goto (s : State T) (t : T) (p : Pc) :
    (s.goto t p).readers + ((s.pc t).holds .read).toNat = s.readers + (p.holds .read).toNat :=
  tally_update _ s.pc t p

theorem writers_goto (s : State T) (t : T) (p : Pc) :
    (s.goto t p).writers + ((s.pc t).holds .write).toNat = s.writers + (p.holds .write).toNat :=
  tally_update _ s.pc t p

omit [DecidableEq T] in
theorem holds_le (s : State T) (t : T) :
    ((s.pc t).holds .read).toNat ≤ s.readers ∧ ((s.pc t).holds .write).toNat ≤ s.writers :=
  ⟨le_tally (fun p => (p.holds .read).toNat) s.pc t, le_tally (fun p => (p.holds .write).toNat) s.pc t⟩

/-- A thread moves; the others' steps stay the right ones. -/
theorem Inv.move (h : Inv s) (v : ℤ) (hp : p.right = true)
    (hcount : ∀ r w, r + ((s.pc t).holds .read).toNat = s.readers + (p.holds .read).toNat →
      w + ((s.pc t).holds .write).toNat = s.writers + (p.holds .write).toNat →
      w = 0 ∧ v = (r : ℤ) ∨ w = 1 ∧ r = 0 ∧ v = -1) :
    Inv (State.goto { s with state := v } t p) where
  right := (Function.forall_update_iff s.pc fun _ q => q.right = true).mpr ⟨hp, fun u _ => h.right u⟩
  count := hcount _ _ (readers_goto { s with state := v } t p) (writers_goto { s with state := v } t p)

/-- A thread moves and changes nothing. -/
theorem Inv.goto (h : Inv s) (hp : p.right = true) (hread : p.holds .read = (s.pc t).holds .read)
    (hwrite : p.holds .write = (s.pc t).holds .write) : Inv (s.goto t p) := by
  refine h.move s.state hp fun r w hr hw => ?_
  rw [hread, Nat.add_right_cancel_iff] at hr
  rw [hwrite, Nat.add_right_cancel_iff] at hw
  rw [hr, hw]
  exact h.count

omit [DecidableEq T] in
/-- The sign of `state` tells a thread in `release` what it holds. -/
theorem Inv.sign (h : Inv s) (hread : (s.pc t).holds .read = true ∨ (s.pc t).holds .write = true) :
    s.state ≠ 0 ∧ (s.state < 0 ↔ (s.pc t).holds .write = true) := by
  obtain ⟨hr, hw⟩ := holds_le s t
  rcases hread with hm | hm
  · rw [hm] at hr
    have hone : 1 ≤ s.readers := hr
    rcases h.count with ⟨hzero, hs⟩ | ⟨-, hno, -⟩
    · refine ⟨by omega, fun hneg => ?_, fun hwrite => ?_⟩
      · omega
      · rw [hwrite] at hw
        have : 1 ≤ s.writers := hw
        omega
    · omega
  · rw [hm] at hw
    have hone : 1 ≤ s.writers := hw
    rcases h.count with ⟨hzero, -⟩ | ⟨-, -, hs⟩
    · omega
    · exact ⟨by omega, fun _ => hm, fun _ => by omega⟩

/-- STEP: a try fails. -/
theorem Inv.fail (h : Inv s) (hread : (s.pc t).holds .read = false)
    (hwrite : (s.pc t).holds .write = false) (once : Bool) : Inv (s.fail t m once) := by
  rw [State.fail]
  cases once with
  | true => exact h.goto rfl hread.symm hwrite.symm
  | false => exact h.goto rfl hread.symm hwrite.symm

/-- STEP: every step keeps the invariant. -/
theorem Inv.step (h : Inv s) (hs : step s a = some s') : Inv s' := by
  cases a with
  | acquire t m once =>
    obtain ⟨hpc, hs⟩ := Option.ite_none_right_eq_some.mp hs
    obtain rfl := Option.some.inj hs
    exact h.goto rfl (by rw [hpc]; rfl) (by rw [hpc]; rfl)
  | release t =>
    rw [SpinLockRW.step] at hs
    split at hs
    · rename_i m hpc
      obtain rfl := Option.some.inj hs
      exact h.goto rfl (by rw [hpc]; rfl) (by rw [hpc]; rfl)
    · cases hs
  | next t =>
    rw [SpinLockRW.step, next] at hs
    split at hs
    · cases hs
    · cases hs
    · rename_i m once hpc
      obtain rfl := Option.some.inj hs
      split
      · exact h.goto ‹_› (by rw [hpc]; rfl) (by rw [hpc]; rfl)
      · exact h.fail (by rw [hpc]; rfl) (by rw [hpc]; rfl) once
    · rename_i m once v hpc
      obtain rfl := Option.some.inj hs
      split
      · rename_i hv
        have hadmits := h.right t
        rw [hpc] at hadmits
        refine h.move _ rfl fun r w hr hw => ?_
        rw [hpc] at hr hw
        have hcount := h.count
        cases m with
        | read =>
          have hpos : 0 ≤ v := of_decide_eq_true hadmits
          have hr' : r + 0 = s.readers + 1 := hr
          have hw' : w + 0 = s.writers + 0 := hw
          rw [Mode.entered]
          omega
        | write =>
          have hzero : v = 0 := of_decide_eq_true hadmits
          have hr' : r + 0 = s.readers + 0 := hr
          have hw' : w + 0 = s.writers + 1 := hw
          rw [Mode.entered]
          omega
      · exact h.fail (by rw [hpc]; rfl) (by rw [hpc]; rfl) once
    · rename_i m hpc
      obtain ⟨-, hs⟩ := Option.ite_none_left_eq_some.mp hs
      obtain rfl := Option.some.inj hs
      exact h.goto rfl (by rw [hpc]; rfl) (by rw [hpc]; rfl)
    · rename_i m hpc
      obtain rfl := Option.some.inj hs
      have hsign := h.sign (t := t) (by rw [hpc]; cases m <;> simp [Pc.holds])
      rw [hpc] at hsign
      cases m with
      | read =>
        rw [if_neg fun hneg => by have := hsign.2.mp hneg; cases this]
        exact h.goto rfl (by rw [hpc]; rfl) (by rw [hpc]; rfl)
      | write =>
        rw [if_pos (hsign.2.mpr rfl)]
        exact h.goto rfl (by rw [hpc]; rfl) (by rw [hpc]; rfl)
    · rename_i m hpc
      obtain rfl := Option.some.inj hs
      have hright := h.right t
      rw [hpc] at hright
      obtain rfl : m = .write := of_decide_eq_true hright
      refine h.move _ rfl fun r w hr hw => ?_
      rw [hpc] at hr hw
      have hcount := h.count
      have hr' : r + 0 = s.readers + 0 := hr
      have hw' : w + 1 = s.writers + 0 := hw
      omega
    · rename_i m hpc
      obtain rfl := Option.some.inj hs
      have hright := h.right t
      rw [hpc] at hright
      obtain rfl : m = .read := of_decide_eq_true hright
      refine h.move _ rfl fun r w hr hw => ?_
      rw [hpc] at hr hw
      have hcount := h.count
      have hr' : r + 1 = s.readers + 0 := hr
      have hw' : w + 0 = s.writers + 0 := hw
      omega

omit [DecidableEq T] in
theorem inv_init : Inv (State.init : State T) where
  right _ := rfl
  count := .inl ⟨tally_eq_zero fun _ => rfl, by
    rw [show (State.init : State T).readers = 0 from tally_eq_zero fun _ => rfl]
    rfl⟩

theorem inv_of_reach (h : Reach (system T) s) : Inv s :=
  h.inv (fun s h0 => by cases h0; exact inv_init) fun _ _ _ hi hs => hi.step hs

/-! ### Every reachable state -/

/-- Keeps a thread that wants the lock for `m` out. -/
def Pc.bars (m : Mode) (p : Pc) : Bool :=
  match m with
  | .read => p.holds .write
  | .write => p.holds .read || p.holds .write

omit [DecidableEq T] in
theorem readers_eq_zero : s.readers = 0 ↔ ∀ t, (s.pc t).holds .read = false := by
  refine ⟨fun hzero t => ?_, fun hall => tally_eq_zero fun t => by rw [hall t]; rfl⟩
  by_contra hne
  have hle := (holds_le s t).1
  rw [Bool.not_eq_false] at hne
  rw [hne] at hle
  have : 1 ≤ s.readers := hle
  omega

omit [DecidableEq T] in
theorem writers_eq_zero : s.writers = 0 ↔ ∀ t, (s.pc t).holds .write = false := by
  refine ⟨fun hzero t => ?_, fun hall => tally_eq_zero fun t => by rw [hall t]; rfl⟩
  by_contra hne
  have hle := (holds_le s t).2
  rw [Bool.not_eq_false] at hne
  rw [hne] at hle
  have : 1 ≤ s.writers := hle
  omega

omit [DecidableEq T] in
/-- A try passes its test exactly if nobody bars it. -/
theorem Inv.admits_iff (h : Inv s) (m : Mode) : m.admits s.state = true ↔ ∀ t, (s.pc t).bars m = false := by
  have hcount := h.count
  cases m with
  | read =>
    rw [Mode.admits, decide_eq_true_iff]
    refine ⟨fun hpos => ?_, fun hall => ?_⟩
    · exact writers_eq_zero.mp (by omega)
    · have := writers_eq_zero.mpr hall
      omega
  | write =>
    rw [Mode.admits, decide_eq_true_iff]
    refine ⟨fun hzero t => ?_, fun hall => ?_⟩
    · rw [Pc.bars, readers_eq_zero.mp (by omega) t, writers_eq_zero.mp (by omega) t]
      rfl
    · have hnobody : ∀ t, (s.pc t).holds .read = false ∧ (s.pc t).holds .write = false := fun t =>
        Bool.or_eq_false_iff.mp (hall t)
      have hr := readers_eq_zero.mpr fun t => (hnobody t).1
      have hw := writers_eq_zero.mpr fun t => (hnobody t).2
      omega

omit [Fintype T] in
/-- A thread that is not disturbed obtains the lock in two steps. -/
theorem undisturbed {once : Bool} (hpc : s.pc t = .loading m once) (hadmits : m.admits s.state = true) :
    ∃ s', exec (system T) s [.next t, .next t] = some s' ∧ s'.pc t = .has m ∧
      ∀ u, u ≠ t → s'.pc u = s.pc u := by
  have hload : step s (.next t) = some (s.goto t (.swapping m once s.state)) := by
    rw [step, next, hpc]
    exact congrArg some (if_pos hadmits)
  have hat : (s.goto t (.swapping m once s.state)).pc t = .swapping m once s.state :=
    Function.update_self ..
  have hswap : step (s.goto t (.swapping m once s.state)) (.next t)
      = some (State.goto { s.goto t (.swapping m once s.state) with state := m.entered s.state }
          t (.has m)) := by
    rw [step, next, hat]
    exact congrArg some (if_pos rfl)
  have hone := (exec_concat (exec_nil (M := system T) s) (.next t)).trans hload
  refine ⟨_, (exec_concat hone (.next t)).trans hswap, Function.update_self .., fun u hu => ?_⟩
  exact (Function.update_of_ne hu ..).trans (Function.update_of_ne hu ..)

/-- What the lock is for. -/
structure Lock (s : State T) : Prop where
  exclusive : ∀ t u m, (s.pc t).holds .write = true → u ≠ t → (s.pc u).holds m = false
  value : s.state = if s.writers = 0 then (s.readers : ℤ) else -1
  asserts : ∀ t m, s.pc t = .asserting m → (step s (.next t)).isSome = true
  tests : ∀ m, m.admits s.state = true ↔ ∀ t, (s.pc t).bars m = false
  obtains : ∀ t m once, s.pc t = .loading m once → (∀ u, (s.pc u).bars m = false) →
    ∃ s', exec (system T) s [.next t, .next t] = some s' ∧ s'.pc t = .has m ∧
      ∀ u, u ≠ t → s'.pc u = s.pc u
  gives : ∀ t m, (s.pc t = .adding m → m = .write ∧ s.state = -1) ∧
    (s.pc t = .subbing m → m = .read ∧ 1 ≤ s.state)

theorem Inv.lock (h : Inv s) : Lock s := by
  refine ⟨fun t u m ht hu => ?_, ?_, fun t m hpc => ?_, h.admits_iff,
    fun t m once hpc hall => undisturbed hpc ((h.admits_iff m).mpr hall),
    fun t m => ⟨fun hpc => ?_, fun hpc => ?_⟩⟩
  · have hone := (holds_le s t).2
    rw [ht] at hone
    have hwriter : 1 ≤ s.writers := hone
    obtain ⟨hw, hr, -⟩ := h.count.resolve_left fun hc => by omega
    cases m with
    | read => exact readers_eq_zero.mp hr u
    | write =>
      by_contra hne
      rw [Bool.not_eq_false] at hne
      refine hu (unique_of_tally_le_one (w := fun p : Pc => (p.holds .write).toNat) hw.le ?_ ?_)
      · simp only [hne, Bool.toNat_true, Nat.lt_one_iff]
      · simp only [ht, Bool.toNat_true, Nat.zero_lt_one]
  · rcases h.count with ⟨hw, hs⟩ | ⟨hw, -, hs⟩
    · rw [if_pos hw, hs]
    · rw [if_neg (by omega), hs]
  · have hsign := (h.sign (t := t) (by rw [hpc]; cases m <;> simp [Pc.holds])).1
    rw [SpinLockRW.step, next, hpc]
    dsimp only
    rw [if_neg hsign]
    rfl
  · have hright := h.right t
    rw [hpc] at hright
    obtain rfl : m = .write := of_decide_eq_true hright
    have hneg := (h.sign (t := t) (.inr (by rw [hpc]; rfl))).2.mpr (by rw [hpc]; rfl)
    refine ⟨rfl, ?_⟩
    rcases h.count with ⟨-, hs⟩ | ⟨-, -, hs⟩
    · omega
    · exact hs
  · have hright := h.right t
    rw [hpc] at hright
    obtain rfl : m = .read := of_decide_eq_true hright
    obtain ⟨hne, hiff⟩ := h.sign (t := t) (.inl (by rw [hpc]; rfl))
    refine ⟨rfl, ?_⟩
    have hnot : ¬ s.state < 0 := fun hneg => by
      have := hiff.mp hneg
      rw [hpc] at this
      cases this
    omega

/-- RUN: one writer or any number of readers, `state` says which, a try passes its test exactly if nobody
    bars it, and `release` gives up what its caller holds, whatever the order of the steps. -/
theorem spin_lock_rw (h : Reach (system T) s) : Lock s := (inv_of_reach h).lock

/-- Two readers hold the lock, one of them about to give it up. -/
theorem spin_lock_rw_readers : ∃ s : State (Fin 3), Reach (system (Fin 3)) s ∧
    (s.state = 2 ∧ s.pc 0 = .subbing .read ∧ s.pc 1 = .has .read ∧ s.pc 2 = .loading .write false) ∧
    Lock s := by
  obtain ⟨s, hs, hp⟩ := reach_of_exec (system (Fin 3)) State.init
    [.acquire 0 .read false, .next 0, .acquire 1 .read true, .next 0, .next 1, .next 1, .release 0, .next 0,
      .acquire 2 .write false, .next 2, .next 0]
    (fun s => decide (s.state = 2 ∧ s.pc 0 = .subbing .read ∧ s.pc 1 = .has .read ∧
      s.pc 2 = .loading .write false)) rfl (by decide)
  exact ⟨s, hs, of_decide_eq_true hp, spin_lock_rw hs⟩

end Counts

end Libfibre.SpinLockRW
