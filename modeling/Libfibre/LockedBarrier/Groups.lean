import Libfibre.Runtime.BlockingQueue
import Libfibre.Schemes.Threads
import Libfibre.Schemes.Transition
import Mathlib.Algebra.Order.Group.Nat
import Mathlib.Tactic.SplitIfs

/-! `LockedBarrier` (`BlockingSync.h`): a counter and a queue under one internal lock, for any family of
    fibres. The lock, the arrival, each round of the releasing loop, `block` with its release of the lock
    and each resumption are one step.

        out ──▶ arrived ──▶ queueing ──▶ blocked ──▶ woken ──▶ out (false)
                   │
                   └──▶ looping (each round: unblock, counter -= 1) ──▶ out (true)

    The calls are numbered by their arrivals; the number that a fibre carries is history. -/

namespace Libfibre.LockedBarrier
open Transition Threads BlockingQueue

/-- Where a fibre is. -/
inductive Pc where
  | out
  | arrived
  | looping (i : ℕ)
  | queueing (i : ℕ)
  | blocked (i : ℕ)
  | woken (i : ℕ)
  deriving DecidableEq

/-- In the lock section. -/
def Pc.holds : Pc → Bool
  | .arrived | .looping _ | .queueing _ => true
  | _ => false

/-- In the lock section, with a call that has arrived and is not in the queue. -/
def Pc.apart : Pc → Bool
  | .looping _ | .queueing _ => true
  | _ => false

/-- The number of the call that has arrived. -/
def Pc.call : Pc → Option ℕ
  | .out | .arrived => none
  | .looping i | .queueing i | .blocked i | .woken i => some i

/-- Asleep in `bq` with an open race. -/
def Pc.waits : Pc → Bool
  | .blocked _ => true
  | _ => false

structure State (F : Type) where
  lock : Option F
  counter : ℕ
  bq : List F
  pc : F → Pc
  calls : List F             -- history: arrivals
  taken : ℕ                  -- history: how many of them have left the queue, or completed their group
  releasedBy : ℕ → Option ℕ  -- history: the call whose loop has woken a call
  result : ℕ → Option Bool   -- history: what a call has returned

inductive Action (F : Type) where
  | wait (f : F)   -- `lock.acquire()` succeeds
  | next (f : F)   -- the holder's next step
  | run (f : F)    -- a resumed fibre runs

variable {F : Type} [DecidableEq F]

def State.goto (s : State F) (f : F) (p : Pc) : State F :=
  { s with pc := Function.update s.pc f p }

def State.returns (s : State F) (f : F) (i : ℕ) (r : Bool) : State F :=
  State.goto { s with result := Function.update s.result i (some r) } f .out

/-- `bq.unblock<true>()` in the loop of call `i`. -/
def State.unblock (s : State F) (i : ℕ) : State F :=
  match BlockingQueue.unblock (fun g => (s.pc g).waits) s.bq with
  | (some g, q) =>
    match s.pc g with
    | .blocked k => State.goto { s with
        bq := q
        taken := s.taken + 1
        releasedBy := Function.update s.releasedBy k (some i) } g (.woken k)
    | _ => s
  | (none, _) => s

/-- `counter += 1`, and which way `wait` goes on. -/
def State.arrive (target : ℕ) (s : State F) (f : F) : State F :=
  State.goto { s with counter := s.counter + 1, calls := s.calls ++ [f] } f
    (if s.counter + 1 = target then .looping s.calls.length else .queueing s.calls.length)

def next (target : ℕ) (s : State F) (f : F) : Option (State F) :=
  match s.pc f with
  | .arrived => some (s.arrive target f)
  | .looping i =>
    if 0 < s.counter then some { s.unblock i with counter := s.counter - 1 }
    else some (State.returns { s with lock := none, taken := s.taken + 1 } f i true)
  | .queueing i => some (State.goto { s with bq := s.bq ++ [f], lock := none } f (.blocked i))
  | _ => none

def step (target : ℕ) (s : State F) : Action F → Option (State F)
  | .wait f =>
    if s.pc f = .out ∧ s.lock = none then some (State.goto { s with lock := some f } f .arrived)
    else none
  | .next f => next target s f
  | .run f =>
    match s.pc f with
    | .woken i => some (s.returns f i false)
    | _ => none

/-- A new barrier. -/
def start : State F where
  lock := none
  counter := 0
  bq := []
  pc _ := .out
  calls := []
  taken := 0
  releasedBy _ := none
  result _ := none

def lockedBarrier (target : ℕ) : System (State F) (Action F) where
  init s := s = start
  step := step target

/-! ### What the barrier is for -/

/-- Group `k` are the calls from `k * target` on, `target` of them; the last one of its group releases the
    others and returns `true`. -/
structure Correct (target : ℕ) (s : State F) : Prop where
  counter : s.lock = none → s.counter < target ∧ s.bq.length = s.counter
  queue : s.lock = none → s.bq.Nodup ∧ ∀ f, f ∈ s.bq ↔ (s.pc f).waits = true
  released : s.lock = none → ∀ i, i / target < s.calls.length / target → i % target + 1 ≠ target →
    s.releasedBy i = some (i / target * target + (target - 1))
  last : s.lock = none → ∀ i, i / target < s.calls.length / target → i % target + 1 = target →
    s.result i = some true
  together : ∀ i j, s.releasedBy i = some j →
    j = i / target * target + (target - 1) ∧ j < s.calls.length
  awake : ∀ i j f, s.releasedBy i = some j → s.calls[i]? = some f →
    s.pc f = .woken i ∨ s.result i = some false
  early : ∀ i, s.result i ≠ none → (i / target + 1) * target ≤ s.calls.length
  once : ∀ i r, s.result i = some r → (r = true ↔ i % target + 1 = target)
  ends : ∀ f, s.lock = some f → ∃ (n : ℕ) (s' : State F),
    exec (lockedBarrier target) s (List.replicate n (.next f)) = some s' ∧ s'.lock = none

/-- INVARIANT: the calls before `taken` are done with, those in the queue follow, and whoever is in the
    lock section may be one more. -/
structure Inv (target : ℕ) (s : State F) : Prop where
  lock : ∀ f, (s.pc f).holds = true ↔ s.lock = some f
  call : ∀ f i, (s.pc f).call = some i ↔ s.calls[i]? = some f ∧ s.result i = none
  fresh : ∀ i, s.taken ≤ i → s.result i = none ∧ s.releasedBy i = none
  released : ∀ i, i < s.taken → i % target + 1 ≠ target →
    s.releasedBy i = some (i / target * target + (target - 1))
  last : ∀ i, i < s.taken → i % target + 1 = target →
    s.result i = some true ∧ s.releasedBy i = none
  complete : ∀ i, i < s.taken → (i / target + 1) * target ≤ s.calls.length
  once : ∀ i r, s.result i = some r → (r = true ↔ i % target + 1 = target)
  blocked : ∀ f i, s.pc f = .blocked i → s.taken ≤ i ∧ i % target + 1 ≠ target
  woken : ∀ f i, s.pc f = .woken i → i < s.taken ∧ i % target + 1 ≠ target
  free : (∀ f, (s.pc f).apart = false) → s.calls.drop s.taken = s.bq ∧ s.taken ≤ s.calls.length ∧
    target ∣ s.taken ∧ s.bq.length = s.counter ∧ s.counter < target
  queueing : ∀ f i, s.pc f = .queueing i → s.calls.drop s.taken = s.bq ++ [f] ∧
    i + 1 = s.calls.length ∧ target ∣ s.taken ∧ s.bq.length + 1 = s.counter ∧ s.counter < target
  looping : ∀ f i, s.pc f = .looping i → s.calls.drop s.taken = s.bq ++ [f] ∧
    i + 1 = s.calls.length ∧ target ∣ s.calls.length ∧ s.bq.length + 1 ≤ target ∧
    (s.bq.length + 1 = s.counter ∨ s.bq = [] ∧ s.counter = 0)

section Facts
variable {target : ℕ} {s s' : State F} {f g : F} {i k : ℕ} {own : List F}

theorem holds_of_apart {p : Pc} (h : p.apart = true) : p.holds = true := by
  cases p <;> first | rfl | cases h

/-- The last number of the group that has been completed with call `n - 1`. -/
theorem group_end {m n : ℕ} (hdvd : target ∣ n) (hlt : m < n) (hle : n ≤ m + target) :
    (m / target + 1) * target = n := by
  obtain ⟨k, rfl⟩ := hdvd
  have hpos : 0 < target := by
    rcases Nat.eq_zero_or_pos target with rfl | hpos
    · rw [Nat.zero_mul] at hlt
      cases hlt
    · exact hpos
  have hdiv : m / target + 1 = k := by
    refine Nat.le_antisymm (Nat.div_lt_of_lt_mul hlt) ?_
    rw [← Nat.add_div_right m hpos]
    exact (Nat.le_div_iff_mul_le hpos).mpr (by rw [Nat.mul_comm]; exact hle)
  rw [hdiv, Nat.mul_comm]

omit [DecidableEq F] in
theorem Inv.own_last (h : Inv target s) (hf : (s.pc f).apart = true) (hcall : (s.pc f).call = some i) :
    s.calls.drop s.taken = s.bq ++ [f] ∧ i + 1 = s.calls.length := by
  cases hpc : s.pc f with
  | looping k =>
    obtain ⟨hdrop, hlast, -⟩ := h.looping f k hpc
    rw [hpc, Pc.call, Option.some.injEq] at hcall
    exact ⟨hdrop, hcall ▸ hlast⟩
  | queueing k =>
    obtain ⟨hdrop, hlast, -⟩ := h.queueing f k hpc
    rw [hpc, Pc.call, Option.some.injEq] at hcall
    exact ⟨hdrop, hcall ▸ hlast⟩
  | _ => rw [hpc] at hf; cases hf

omit [DecidableEq F] in
theorem drop_length (hdrop : s.calls.drop s.taken = s.bq ++ own) :
    s.calls.length - s.taken = s.bq.length + own.length := by
  rw [← List.length_drop, hdrop, List.length_append]

omit [DecidableEq F] in
/-- Those in the queue are blocked, and their calls follow the ones that are done with. -/
theorem Inv.queued (h : Inv target s) (hdrop : s.calls.drop s.taken = s.bq ++ own)
    (hg : s.bq[k]? = some g) : s.pc g = .blocked (s.taken + k) := by
  have hlt : k < s.bq.length := (List.getElem?_eq_some_iff.mp hg).1
  have hcalls : s.calls[s.taken + k]? = some g := by
    rw [← List.getElem?_drop, hdrop, List.getElem?_append_left hlt, hg]
  have hcall := (h.call g (s.taken + k)).mpr ⟨hcalls, (h.fresh _ (Nat.le_add_right ..)).1⟩
  have hapart : (s.pc g).apart = false := by
    by_contra hapart
    obtain ⟨hdrop', hlast⟩ := h.own_last (by simpa using hapart) hcall
    have hlength := drop_length hdrop'
    rw [List.length_singleton] at hlength
    omega
  cases hpc : s.pc g with
  | blocked i =>
    rw [hpc, Pc.call, Option.some.injEq] at hcall
    rw [hcall]
  | woken i =>
    rw [hpc, Pc.call, Option.some.injEq] at hcall
    have hwoken := (h.woken g i hpc).1
    omega
  | out | arrived => rw [hpc] at hcall; cases hcall
  | looping i | queueing i => rw [hpc] at hapart; cases hapart

omit [DecidableEq F] in
/-- Those who are blocked are in the queue. -/
theorem Inv.mem_queue (h : Inv target s) (hdrop : s.calls.drop s.taken = s.bq ++ own)
    (hown : ∀ f ∈ own, (s.pc f).waits = false) (hg : s.pc g = .blocked i) : g ∈ s.bq := by
  have hle := (h.blocked g i hg).1
  have hcalls := ((h.call g i).mp (by rw [hg]; rfl)).1
  have hmem : g ∈ s.calls.drop s.taken := by
    refine List.mem_of_getElem? (i := i - s.taken) ?_
    rw [List.getElem?_drop, Nat.add_sub_cancel' hle, hcalls]
  rw [hdrop, List.mem_append] at hmem
  refine hmem.resolve_right fun hmine => ?_
  have hwaits := hown g hmine
  rw [hg] at hwaits
  cases hwaits

omit [DecidableEq F] in
theorem Inv.nodup (h : Inv target s) (hdrop : s.calls.drop s.taken = s.bq ++ own) : s.bq.Nodup := by
  rw [List.nodup_iff_getElem?_ne_getElem?]
  intro j k hjk hk heq
  have hk' : s.bq[k]? = some s.bq[k] := List.getElem?_eq_getElem hk
  have hj := h.queued hdrop (heq.trans hk')
  rw [h.queued hdrop hk', Pc.blocked.injEq] at hj
  omega

omit [DecidableEq F] in
/-- Two fibres do not have the same call. -/
theorem Inv.call_unique (h : Inv target s) (hf : (s.pc f).call = some i) (hg : (s.pc g).call = some i) :
    f = g := by
  have hf' := ((h.call f i).mp hf).1
  have hg' := ((h.call g i).mp hg).1
  exact Option.some.inj (hf'.symm.trans hg')

omit [DecidableEq F] in
/-- Whoever else is blocked comes after the call that leaves the queue now. -/
theorem Inv.blocked_behind (h : Inv target s) (hcall : (s.pc f).call = some s.taken) (hgf : g ≠ f)
    (hg : s.pc g = .blocked k) : s.taken + 1 ≤ k ∧ k % target + 1 ≠ target := by
  obtain ⟨hle, hnot⟩ := h.blocked g k hg
  refine ⟨?_, hnot⟩
  rcases Nat.lt_or_eq_of_le hle with hlt | rfl
  · exact hlt
  · exact absurd (h.call_unique (by rw [hg]; rfl) hcall) hgf

/-! ### Every step -/

omit [DecidableEq F] in
theorem Inv.none_apart (h : Inv target s) (hnot : ∀ f, s.lock = some f → (s.pc f).apart = false) (g : F) :
    (s.pc g).apart = false := by
  by_contra hapart
  have hlock := (h.lock g).mp (holds_of_apart (by simpa using hapart))
  exact hapart (hnot g hlock)

/-- STEP: the lock is taken. -/
theorem Inv.acquire (h : Inv target s) (hpc : s.pc f = .out) (hlock : s.lock = none) :
    Inv target (State.goto { s with lock := some f } f .arrived) where
  lock := lock_move h.lock (lock_taken hlock rfl rfl)
  call g i := by
    have hsame : (Function.update s.pc f .arrived g).call = (s.pc g).call :=
      same_at (f := Pc.call) (by rw [hpc]; rfl) g
    exact hsame ▸ h.call g i
  fresh := h.fresh
  released := h.released
  last := h.last
  complete := h.complete
  once := h.once
  blocked g i hg := h.blocked g i (stayed hg nofun).2
  woken g i hg := h.woken g i (stayed hg nofun).2
  free _ := h.free (h.none_apart fun g hg => by rw [hlock] at hg; cases hg)
  queueing g i hg := h.queueing g i (stayed hg nofun).2
  looping g i hg := h.looping g i (stayed hg nofun).2

/-- STEP: a call arrives. -/
theorem Inv.arrive (h : Inv target s) (hpc : s.pc f = .arrived) : Inv target (s.arrive target f) := by
  have hmine : s.lock = some f := (h.lock f).mp (by rw [hpc]; rfl)
  have hnone : ∀ g, (s.pc g).apart = false := h.none_apart fun g hg => by
    obtain rfl := Option.some.inj (hmine.symm.trans hg)
    rw [hpc]
    rfl
  obtain ⟨hdrop, hle, hdvd, hlength, hlt⟩ := h.free hnone
  have hnew : (s.calls ++ [f]).drop s.taken = s.bq ++ [f] := by
    rw [List.drop_append_of_le_length hle, hdrop]
  have hall : s.calls.length = s.taken + s.counter := by
    have hrest := congrArg List.length hdrop
    rw [List.length_drop] at hrest
    omega
  have hlast : s.calls.length + 1 = (s.calls ++ [f]).length := by
    rw [List.length_append, List.length_singleton]
  have hpc' : ∀ g q, (s.arrive target f).pc g = q → g ≠ f ∧ s.pc g = q ∨
      g = f ∧ (s.counter + 1 = target ∧ q = .looping s.calls.length ∨
        s.counter + 1 ≠ target ∧ q = .queueing s.calls.length) := by
    intro g q hq
    rcases moved hq with ⟨hg, hq⟩ | hstay
    · split_ifs at hq with hfull
      · exact .inr ⟨hg, .inl ⟨hfull, hq.symm⟩⟩
      · exact .inr ⟨hg, .inr ⟨hfull, hq.symm⟩⟩
    · exact .inl hstay
  refine ⟨?_, ?_, h.fresh, h.released, h.last, ?_, h.once, ?_, ?_, ?_, ?_, ?_⟩
  · refine lock_move h.lock (lock_same h.lock rfl ?_)
    rw [hpc]
    split_ifs <;> rfl
  · intro g i
    change (Function.update s.pc f _ g).call = some i ↔ (s.calls ++ [f])[i]? = some g ∧ s.result i = none
    rcases eq_or_ne g f with rfl | hgf
    · have hcall : (if s.counter + 1 = target then Pc.looping s.calls.length
          else .queueing s.calls.length).call = some s.calls.length := by
        split_ifs <;> rfl
      rw [Function.update_self, hcall, Option.some.injEq]
      constructor
      · rintro rfl
        exact ⟨List.getElem?_concat_length, (h.fresh _ hle).1⟩
      · rintro ⟨hi, hresult⟩
        by_contra hne
        have hold : s.calls[i]? = some g := by
          rcases Nat.lt_or_gt_of_ne hne with hgt | hlt
          · rw [List.getElem?_eq_none (by rw [List.length_append, List.length_singleton]; omega)] at hi
            cases hi
          · rwa [List.getElem?_append_left hlt] at hi
        have hcalled := (h.call g i).mpr ⟨hold, hresult⟩
        rw [hpc] at hcalled
        cases hcalled
    · rw [Function.update_of_ne hgf, h.call]
      refine and_congr_left fun _ => ?_
      rcases Nat.lt_or_ge i s.calls.length with hlt | hge
      · rw [List.getElem?_append_left hlt]
      · rw [List.getElem?_eq_none hge, List.getElem?_append_right hge, List.getElem?_singleton]
        refine iff_of_false nofun fun hi => ?_
        split_ifs at hi
        exact hgf (Option.some.inj hi).symm
  · intro i hi
    refine (h.complete i hi).trans ?_
    exact List.length_append ▸ Nat.le_add_right ..
  · intro g i hg
    rcases hpc' g _ hg with ⟨-, hg⟩ | ⟨-, ⟨-, hg⟩ | ⟨-, hg⟩⟩
    · exact h.blocked g i hg
    · cases hg
    · cases hg
  · intro g i hg
    rcases hpc' g _ hg with ⟨-, hg⟩ | ⟨-, ⟨-, hg⟩ | ⟨-, hg⟩⟩
    · exact h.woken g i hg
    · cases hg
    · cases hg
  · intro hnot
    have happart := hnot f
    simp only [State.arrive, State.goto, Function.update_self] at happart
    split_ifs at happart <;> cases happart
  · intro g i hg
    rcases hpc' g _ hg with ⟨-, hg⟩ | ⟨rfl, ⟨-, hg⟩ | ⟨hfull, hg⟩⟩
    · have hother := hnone g
      rw [hg] at hother
      cases hother
    · cases hg
    · obtain rfl := Pc.queueing.inj hg
      refine ⟨hnew, hlast, hdvd, ?_, ?_⟩
      · exact congrArg (· + 1) hlength
      · simp only [State.arrive, State.goto]
        omega
  · intro g i hg
    rcases hpc' g _ hg with ⟨-, hg⟩ | ⟨rfl, ⟨hfull, hg⟩ | ⟨-, hg⟩⟩
    · have hother := hnone g
      rw [hg] at hother
      cases hother
    · obtain rfl := Pc.looping.inj hg
      have hcount : (s.calls ++ [g]).length = s.taken + target := by omega
      refine ⟨hnew, hlast, ?_, ?_, .inl (congrArg (· + 1) hlength)⟩
      · change target ∣ (s.calls ++ [g]).length
        rw [hcount]
        exact Nat.dvd_add_self_right.mpr hdvd
      · simp only [State.arrive, State.goto]
        omega
    · cases hg

/-- STEP: the fibre is queued, and the lock released. -/
theorem Inv.queue (h : Inv target s) (hpc : s.pc f = .queueing i) :
    Inv target (State.goto { s with bq := s.bq ++ [f], lock := none } f (.blocked i)) := by
  have hholds : (s.pc f).holds = true := by rw [hpc]; rfl
  obtain ⟨hdrop, hlast, hdvd, hlength, hlt⟩ := h.queueing f i hpc
  have hall := drop_length hdrop
  rw [List.length_singleton] at hall
  refine ⟨lock_move h.lock (lock_released h.lock hholds rfl rfl), ?_, h.fresh, h.released, h.last,
    h.complete, h.once, ?_, ?_, ?_, ?_, ?_⟩
  · intro g k
    have hsame : (Function.update s.pc f (.blocked i) g).call = (s.pc g).call :=
      same_at (f := Pc.call) (by rw [hpc]; rfl) g
    exact hsame ▸ h.call g k
  · intro g k hg
    rcases moved hg with ⟨-, hg⟩ | ⟨-, hg⟩
    · obtain rfl := Pc.blocked.inj hg
      have hsum : i = s.taken + s.bq.length := by omega
      refine ⟨by simp only [State.goto]; omega, ?_⟩
      obtain ⟨q, hq⟩ := hdvd
      rw [hsum, hq, Nat.mul_add_mod, Nat.mod_eq_of_lt (by omega)]
      omega
    · exact h.blocked g k hg
  · intro g k hg
    exact h.woken g k (stayed hg nofun).2
  · intro _
    refine ⟨hdrop, by simp only [State.goto]; omega, hdvd, ?_, hlt⟩
    rw [← hlength]
    exact List.length_append
  · intro g k hg
    obtain ⟨hgf, hg⟩ := stayed hg nofun
    exact absurd (locked_eq h.lock hholds (by rw [hg]; rfl)) hgf
  · intro g k hg
    obtain ⟨hgf, hg⟩ := stayed hg nofun
    exact absurd (locked_eq h.lock hholds (by rw [hg]; rfl)) hgf

/-- A call returns: it is nobody's any more. -/
theorem Inv.call_returns (h : Inv target s) (hcall : (s.pc f).call = some i) (r : Bool) (g : F) (k : ℕ) :
    (Function.update s.pc f .out g).call = some k ↔
      s.calls[k]? = some g ∧ Function.update s.result i (some r) k = none := by
  rcases eq_or_ne k i with rfl | hki
  · rw [Function.update_self]
    refine iff_of_false (fun hg => ?_) fun hg => ?_
    · rcases eq_or_ne g f with rfl | hgf
      · rw [Function.update_self] at hg
        cases hg
      · rw [Function.update_of_ne hgf] at hg
        exact hgf (h.call_unique hg hcall)
    · cases hg.2
  · rw [Function.update_of_ne hki, ← h.call]
    rcases eq_or_ne g f with rfl | hgf
    · rw [Function.update_self, hcall]
      refine iff_of_false nofun fun hg => ?_
      exact hki (Option.some.inj hg).symm
    · rw [Function.update_of_ne hgf]

/-- STEP: a resumed fibre runs, and its call returns. -/
theorem Inv.run (h : Inv target s) (hpc : s.pc f = .woken i) : Inv target (s.returns f i false) := by
  have hcall : (s.pc f).call = some i := by rw [hpc]; rfl
  obtain ⟨hlt, hnot⟩ := h.woken f i hpc
  have hresult : ∀ k, k ≠ i → (s.returns f i false).result k = s.result k :=
    fun k hk => Function.update_of_ne hk ..
  refine ⟨lock_move h.lock (lock_same h.lock rfl (by rw [hpc]; rfl)), h.call_returns hcall false, ?_,
    h.released, ?_, h.complete, ?_, ?_, ?_, ?_, ?_, ?_⟩
  · intro k hk
    have hki : k ≠ i := (Nat.lt_of_lt_of_le hlt hk).ne'
    rw [hresult k hki]
    exact h.fresh k hk
  · intro k hk hlast
    have hki : k ≠ i := by
      rintro rfl
      exact hnot hlast
    rw [hresult k hki]
    exact h.last k hk hlast
  · intro k r hr
    rcases eq_or_ne k i with rfl | hki
    · have hfalse : (s.returns f k false).result k = some false := Function.update_self ..
      rw [hfalse, Option.some.injEq] at hr
      subst hr
      exact iff_of_false Bool.false_ne_true hnot
    · rw [hresult k hki] at hr
      exact h.once k r hr
  · intro g k hg
    exact h.blocked g k (stayed hg nofun).2
  · intro g k hg
    exact h.woken g k (stayed hg nofun).2
  · intro hnone
    have hsame : ∀ g, (Function.update s.pc f .out g).apart = (s.pc g).apart :=
      same_at (f := Pc.apart) (by rw [hpc]; rfl)
    exact h.free fun g => (hsame g).symm.trans (hnone g)
  · intro g k hg
    exact h.queueing g k (stayed hg nofun).2
  · intro g k hg
    exact h.looping g k (stayed hg nofun).2

/-- STEP: the loop is over, and the last call of the group returns. -/
theorem Inv.finish (h : Inv target s) (hpc : s.pc f = .looping i) (hcounter : s.counter = 0) :
    Inv target (State.returns { s with lock := none, taken := s.taken + 1 } f i true) := by
  have hholds : (s.pc f).holds = true := by rw [hpc]; rfl
  have hcall : (s.pc f).call = some i := by rw [hpc]; rfl
  obtain ⟨hdrop, hlast, hdvd, hle, hloop⟩ := h.looping f i hpc
  obtain ⟨hempty, -⟩ := hloop.resolve_left (by omega)
  have hall := drop_length hdrop
  rw [hempty, List.length_nil, List.length_singleton] at hall
  obtain rfl : i = s.taken := by omega
  have hend := group_end hdvd (by omega : s.taken < s.calls.length) (by omega)
  have hmod : s.taken % target + 1 = target := by
    have hdiv := Nat.div_add_mod' s.taken target
    rw [Nat.succ_mul] at hend
    omega
  have hresult : ∀ k, k ≠ s.taken →
      Function.update s.result s.taken (some true) k = s.result k := fun k hk => Function.update_of_ne hk ..
  have hcase : ∀ k, k < s.taken + 1 → k = s.taken ∨ k < s.taken := fun k hk => by omega
  refine ⟨lock_move h.lock (lock_released h.lock hholds rfl rfl), h.call_returns hcall true, ?_, ?_, ?_,
    ?_, ?_, ?_, ?_, ?_, ?_, ?_⟩
  · intro k hk
    have hk' : s.taken + 1 ≤ k := hk
    refine ⟨?_, (h.fresh k (by omega)).2⟩
    exact (hresult k (by omega)).trans (h.fresh k (by omega)).1
  · intro k hk hnot
    rcases hcase k hk with rfl | hk
    · exact absurd hmod hnot
    · exact h.released k hk hnot
  · intro k hk hend
    rcases hcase k hk with rfl | hk
    · exact ⟨Function.update_self .., (h.fresh _ le_rfl).2⟩
    · obtain ⟨hold, hby⟩ := h.last k hk hend
      exact ⟨(hresult k hk.ne).trans hold, hby⟩
  · intro k hk
    rcases hcase k hk with rfl | hk
    · exact hend.le
    · exact h.complete k hk
  · intro k r hr
    have hr' : Function.update s.result s.taken (some true) k = some r := hr
    rcases eq_or_ne k s.taken with rfl | hk
    · rw [Function.update_self, Option.some.injEq] at hr'
      subst hr'
      exact iff_of_true rfl hmod
    · rw [hresult k hk] at hr'
      exact h.once k r hr'
  · intro g k hg
    obtain ⟨hgf, hg⟩ := stayed hg nofun
    exact h.blocked_behind hcall hgf hg
  · intro g k hg
    obtain ⟨hlt, hnot⟩ := h.woken g k (stayed hg nofun).2
    exact ⟨Nat.lt_succ_of_lt hlt, hnot⟩
  · intro _
    have hcount : s.calls.length = s.taken + 1 := by omega
    refine ⟨?_, hcount.ge, hcount ▸ hdvd, ?_, ?_⟩
    · change s.calls.drop (s.taken + 1) = s.bq
      rw [hempty, ← hcount, List.drop_length]
    · change s.bq.length = s.counter
      rw [hempty, hcounter]
      rfl
    · change s.counter < target
      omega
  · intro g k hg
    obtain ⟨hgf, hg⟩ := stayed hg nofun
    exact absurd (locked_eq h.lock hholds (by rw [hg]; rfl)) hgf
  · intro g k hg
    obtain ⟨hgf, hg⟩ := stayed hg nofun
    exact absurd (locked_eq h.lock hholds (by rw [hg]; rfl)) hgf

/-- `unblock` on a queue of blocked fibres wakes the first one. -/
theorem unblock_cons {rest : List F} (hbq : s.bq = g :: rest) (hg : s.pc g = .blocked k) :
    s.unblock i = State.goto { s with
      bq := rest
      taken := s.taken + 1
      releasedBy := Function.update s.releasedBy k (some i) } g (.woken k) := by
  have hwaits : (s.pc g).waits = true := by rw [hg]; rfl
  rw [State.unblock, hbq, BlockingQueue.unblock, if_pos hwaits]
  simp only [hg]

theorem unblock_nil (hbq : s.bq = []) : s.unblock i = s := by
  rw [State.unblock, hbq, BlockingQueue.unblock]

/-- STEP: a round of the loop. The last one finds nobody. -/
theorem Inv.round (h : Inv target s) (hpc : s.pc f = .looping i) (hcounter : 0 < s.counter) :
    Inv target { s.unblock i with counter := s.counter - 1 } := by
  have hholds : (s.pc f).holds = true := by rw [hpc]; rfl
  obtain ⟨hdrop, hlast, hdvd, hle, hloop⟩ := h.looping f i hpc
  have hlength : s.bq.length + 1 = s.counter := hloop.resolve_right fun hzero => by omega
  cases hbq : s.bq with
  | nil =>
    rw [unblock_nil hbq]
    have hone : s.counter - 1 = 0 := by
      rw [hbq, List.length_nil] at hlength
      omega
    refine ⟨h.lock, h.call, h.fresh, h.released, h.last, h.complete, h.once, h.blocked, h.woken, ?_, ?_, ?_⟩
    · intro hnone
      have hf := hnone f
      rw [hpc] at hf
      cases hf
    · intro g k hg
      obtain rfl := locked_eq h.lock hholds (by rw [hg]; rfl)
      rw [hpc] at hg
      cases hg
    · intro g k hg
      obtain rfl := locked_eq h.lock hholds (by rw [hg]; rfl)
      rw [hpc, Pc.looping.injEq] at hg
      subst hg
      exact ⟨hdrop, hlast, hdvd, hle, .inr ⟨hbq, hone⟩⟩
  | cons g rest =>
    have hfirst : s.bq[0]? = some g := by rw [hbq]; rfl
    have hg : s.pc g = .blocked s.taken := h.queued hdrop hfirst
    have hgf : g ≠ f := by
      rintro rfl
      rw [hpc] at hg
      cases hg
    have hall := drop_length hdrop
    rw [List.length_singleton] at hall
    have hend := group_end hdvd (by omega : s.taken < s.calls.length) (by omega)
    have hnot : s.taken % target + 1 ≠ target := (h.blocked g _ hg).2
    have hmine : i = s.taken / target * target + (target - 1) := by
      rw [Nat.succ_mul] at hend
      omega
    have hcase : ∀ k, k < s.taken + 1 → k = s.taken ∨ k < s.taken := fun k hk => by omega
    have hreleased : ∀ k, k ≠ s.taken →
        Function.update s.releasedBy s.taken (some i) k = s.releasedBy k :=
      fun k hk => Function.update_of_ne hk ..
    rw [unblock_cons hbq hg]
    refine ⟨?_, ?_, ?_, ?_, ?_, ?_, h.once, ?_, ?_, ?_, ?_, ?_⟩
    · exact lock_move h.lock (lock_same h.lock rfl (by rw [hg]; rfl))
    · intro v k
      have hsame : (Function.update s.pc g (.woken s.taken) v).call = (s.pc v).call :=
        same_at (f := Pc.call) (by rw [hg]; rfl) v
      exact hsame ▸ h.call v k
    · intro k hk
      have hk' : s.taken + 1 ≤ k := hk
      obtain ⟨hresult, hby⟩ := h.fresh k (by omega)
      exact ⟨hresult, (hreleased k (by omega)).trans hby⟩
    · intro k hk hk'
      rcases hcase k hk with rfl | hk
      · exact (Function.update_self ..).trans (congrArg some hmine)
      · exact (hreleased k hk.ne).trans (h.released k hk hk')
    · intro k hk hend
      rcases hcase k hk with rfl | hk
      · exact absurd hend hnot
      · obtain ⟨hresult, hby⟩ := h.last k hk hend
        exact ⟨hresult, (hreleased k hk.ne).trans hby⟩
    · intro k hk
      rcases hcase k hk with rfl | hk
      · exact hend.le
      · exact h.complete k hk
    · intro v k hv
      obtain ⟨hvg, hv⟩ := stayed hv nofun
      exact h.blocked_behind (by rw [hg]; rfl) hvg hv
    · intro v k hv
      rcases moved hv with ⟨-, hv⟩ | ⟨-, hv⟩
      · obtain rfl := Pc.woken.inj hv
        exact ⟨Nat.lt_succ_self _, hnot⟩
      · obtain ⟨hlt, hnot⟩ := h.woken v k hv
        exact ⟨Nat.lt_succ_of_lt hlt, hnot⟩
    · intro hnone
      have hf := hnone f
      simp only [State.goto, Function.update_of_ne hgf.symm, hpc] at hf
      cases hf
    · intro v k hv
      obtain ⟨-, hv⟩ := stayed hv nofun
      obtain rfl := locked_eq h.lock hholds (by rw [hv]; rfl)
      rw [hpc] at hv
      cases hv
    · intro v k hv
      obtain ⟨-, hv⟩ := stayed hv nofun
      obtain rfl := locked_eq h.lock hholds (by rw [hv]; rfl)
      rw [hpc, Pc.looping.injEq] at hv
      subst hv
      have hrest : rest.length + 1 = s.bq.length := by rw [hbq]; rfl
      refine ⟨?_, hlast, hdvd, ?_, .inl ?_⟩
      · change s.calls.drop (s.taken + 1) = rest ++ [v]
        rw [← List.tail_drop, hdrop, hbq]
        rfl
      · change rest.length + 1 ≤ target
        omega
      · change rest.length + 1 = s.counter - 1
        omega

theorem inv_step {a : Action F} (h : Inv target s) (hs : step target s a = some s') :
    Inv target s' := by
  cases a with
  | wait f =>
    simp only [step] at hs
    split_ifs at hs with hpc
    obtain rfl := Option.some.inj hs
    exact h.acquire hpc.1 hpc.2
  | next f =>
    cases hpc : s.pc f <;> simp only [step, next, hpc, reduceCtorEq] at hs
    case arrived =>
      obtain rfl := Option.some.inj hs
      exact h.arrive hpc
    case looping i =>
      split_ifs at hs with hcounter
      · obtain rfl := Option.some.inj hs
        exact h.round hpc hcounter
      · obtain rfl := Option.some.inj hs
        exact h.finish hpc (by omega)
    case queueing i =>
      obtain rfl := Option.some.inj hs
      exact h.queue hpc
  | run f =>
    cases hpc : s.pc f <;> simp only [step, hpc, reduceCtorEq] at hs
    case woken i =>
      obtain rfl := Option.some.inj hs
      exact h.run hpc

omit [DecidableEq F] in
theorem inv_start (hpos : 0 < target) : Inv target (start : State F) where
  lock _ := iff_of_false Bool.false_ne_true nofun
  call _ _ := iff_of_false nofun fun h => by cases h.1
  fresh _ _ := ⟨rfl, rfl⟩
  released _ hi := by cases hi
  last _ hi := by cases hi
  complete _ hi := by cases hi
  once _ _ hr := by cases hr
  blocked _ _ hf := by cases hf
  woken _ _ hf := by cases hf
  free _ := ⟨rfl, le_rfl, Nat.dvd_zero target, rfl, hpos⟩
  queueing _ _ hf := by cases hf
  looping _ _ hf := by cases hf

/-! ### The section ends -/

theorem unblock_keeps (hpc : s.pc f = .looping i) :
    (s.unblock i).pc f = .looping i ∧ (s.unblock i).lock = s.lock := by
  rw [State.unblock]
  split
  · rename_i g q hunblock
    split
    · rename_i k hg
      have hfg : f ≠ g := by
        rintro rfl
        rw [hpc] at hg
        cases hg
      exact ⟨(Function.update_of_ne hfg ..).trans hpc, rfl⟩
    · exact ⟨hpc, rfl⟩
  · exact ⟨hpc, rfl⟩

/-- The loop counts down to the release of the lock. -/
theorem loop_ends (hpc : s.pc f = .looping i) : ∃ (n : ℕ) (s' : State F),
    exec (lockedBarrier target) s (List.replicate n (.next f)) = some s' ∧ s'.lock = none := by
  induction hcounter : s.counter generalizing s with
  | zero =>
    refine ⟨1, State.returns { s with lock := none, taken := s.taken + 1 } f i true, ?_, rfl⟩
    simp [lockedBarrier, step, next, hpc, hcounter]
  | succ c ih =>
    have hstep : (lockedBarrier target).step s (.next f) =
        some { s.unblock i with counter := s.counter - 1 } := by
      simp [lockedBarrier, step, next, hpc, hcounter]
    obtain ⟨n, s', he, hfree⟩ := ih (s := { s.unblock i with counter := s.counter - 1 })
      (unblock_keeps hpc).1 (by simp [hcounter])
    refine ⟨n + 1, s', ?_, hfree⟩
    rw [List.replicate_succ, exec_cons, hstep]
    exact he

theorem Inv.section_ends (h : Inv target s) (hlock : s.lock = some f) : ∃ (n : ℕ) (s' : State F),
    exec (lockedBarrier target) s (List.replicate n (.next f)) = some s' ∧ s'.lock = none := by
  have hqueue : ∀ {s : State F} {i : ℕ}, s.pc f = .queueing i →
      exec (lockedBarrier target) s [.next f] =
        some (State.goto { s with bq := s.bq ++ [f], lock := none } f (.blocked i)) := by
    intro s i hpc
    simp [lockedBarrier, step, next, hpc]
  have hholds := (h.lock f).mpr hlock
  cases hpc : s.pc f with
  | queueing i => exact ⟨1, _, hqueue hpc, rfl⟩
  | looping i => exact loop_ends hpc
  | arrived =>
    have hstep : (lockedBarrier target).step s (.next f) = some (s.arrive target f) := by
      simp [lockedBarrier, step, next, hpc]
    have hrest : ∃ (n : ℕ) (s' : State F),
        exec (lockedBarrier target) (s.arrive target f) (List.replicate n (.next f)) = some s' ∧
          s'.lock = none := by
      have hnew : (s.arrive target f).pc f =
          if s.counter + 1 = target then .looping s.calls.length else .queueing s.calls.length :=
        Function.update_self ..
      split_ifs at hnew with hfull
      · exact loop_ends hnew
      · exact ⟨1, _, hqueue hnew, rfl⟩
    obtain ⟨n, s', he, hfree⟩ := hrest
    refine ⟨n + 1, s', ?_, hfree⟩
    rw [List.replicate_succ, exec_cons, hstep]
    exact he
  | _ => rw [hpc] at hholds; cases hholds

omit [DecidableEq F] in
theorem Inv.unlocked (h : Inv target s) (hlock : s.lock = none) :
    s.calls.drop s.taken = s.bq ++ [] ∧ s.bq.length = s.counter ∧ s.counter < target ∧
      ∀ i, i / target < s.calls.length / target → i < s.taken := by
  obtain ⟨hdrop, hle, hdvd, hlength, hlt⟩ := h.free (h.none_apart fun f hf => by
    rw [hlock] at hf
    cases hf)
  have hall := congrArg List.length hdrop
  rw [List.length_drop] at hall
  obtain ⟨q, hq⟩ := hdvd
  refine ⟨by rw [hdrop, List.append_nil], hlength, hlt, fun i hi => ?_⟩
  have hsum : s.calls.length = s.counter + target * q := by omega
  rw [hsum, Nat.add_mul_div_left _ _ (by omega), Nat.div_eq_of_lt hlt, Nat.zero_add] at hi
  rw [hq, Nat.mul_comm]
  exact (Nat.div_lt_iff_lt_mul (by omega)).mp hi

omit [DecidableEq F] in
theorem Inv.releasedBy (h : Inv target s) {j : ℕ} (hj : s.releasedBy i = some j) :
    i < s.taken ∧ i % target + 1 ≠ target := by
  have hlt : i < s.taken := by
    by_contra hge
    rw [(h.fresh i (by omega)).2] at hj
    cases hj
  refine ⟨hlt, fun hend => ?_⟩
  rw [(h.last i hlt hend).2] at hj
  cases hj

theorem Inv.correct (h : Inv target s) (hpos : 0 < target) : Correct target s where
  counter hlock := by
    obtain ⟨-, hlength, hlt, -⟩ := h.unlocked hlock
    exact ⟨hlt, hlength⟩
  queue hlock := by
    obtain ⟨hdrop, -⟩ := h.unlocked hlock
    refine ⟨h.nodup hdrop, fun f => ⟨fun hf => ?_, fun hf => ?_⟩⟩
    · obtain ⟨k, hk⟩ := List.mem_iff_getElem?.mp hf
      rw [h.queued hdrop hk]
      rfl
    · cases hpc : s.pc f with
      | blocked i => exact h.mem_queue hdrop (fun _ hmine => by cases hmine) hpc
      | _ => rw [hpc] at hf; cases hf
  released hlock i hi hnot := h.released i ((h.unlocked hlock).2.2.2 i hi) hnot
  last hlock i hi hend := (h.last i ((h.unlocked hlock).2.2.2 i hi) hend).1
  together i j hj := by
    obtain ⟨hlt, hnot⟩ := h.releasedBy hj
    have hmine := (h.released i hlt hnot).symm.trans hj
    rw [Option.some.injEq] at hmine
    have hcomplete := h.complete i hlt
    rw [Nat.succ_mul] at hcomplete
    omega
  awake i j f hj hf := by
    obtain ⟨hlt, hnot⟩ := h.releasedBy hj
    cases hresult : s.result i with
    | some r =>
      have honce := h.once i r hresult
      cases r with
      | true => exact absurd (honce.mp rfl) hnot
      | false => exact .inr rfl
    | none =>
      have hcall := (h.call f i).mpr ⟨hf, hresult⟩
      left
      cases hpc : s.pc f with
      | woken k =>
        rw [hpc, Pc.call, Option.some.injEq] at hcall
        rw [hcall]
      | blocked k =>
        rw [hpc, Pc.call, Option.some.injEq] at hcall
        have hle := (h.blocked f k hpc).1
        omega
      | looping k | queueing k =>
        obtain ⟨hdrop, hlast⟩ := h.own_last (by rw [hpc]; rfl) hcall
        have hlength := drop_length hdrop
        rw [List.length_singleton] at hlength
        omega
      | out | arrived => rw [hpc] at hcall; cases hcall
  early i hi := by
    refine h.complete i ?_
    by_contra hge
    exact hi (h.fresh i (by omega)).1
  once := h.once
  ends _ hlock := h.section_ends hlock

/-- The barrier works, in every state of every run. -/
theorem locked_barrier (hpos : 0 < target) {s : State F} (hr : Reach (lockedBarrier target) s) :
    Correct target s := by
  have hinv : Inv target s := by
    refine hr.inv (I := Inv target) ?_ ?_
    · intro s hs
      subst hs
      exact inv_start hpos
    · intro s a s' h hs
      exact inv_step h hs
  exact hinv.correct hpos

end Facts

/-- Two fibres, the second of which releases the first: a state with both calls done. -/
theorem locked_barrier_two : ∃ s, Reach (lockedBarrier 2) s ∧ s.calls = [false, true] ∧
    s.result 0 = some false ∧ s.result 1 = some true ∧ Correct 2 s := by
  have he : (exec (lockedBarrier 2) (start : State Bool) [.wait false, .next false, .next false,
      .wait true, .next true, .next true, .next true, .next true, .run false]).map (fun s =>
        decide (s.calls = [false, true] ∧ s.result 0 = some false ∧ s.result 1 = some true)) =
      some true := by decide
  obtain ⟨s, hr, hs⟩ := reach_of_exec (lockedBarrier 2) start _ _ rfl he
  obtain ⟨hcalls, hfirst, hsecond⟩ := of_decide_eq_true hs
  exact ⟨s, hr, hcalls, hfirst, hsecond, locked_barrier (by decide) hr⟩

end Libfibre.LockedBarrier
