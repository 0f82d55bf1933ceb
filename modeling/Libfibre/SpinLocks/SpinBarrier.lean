import Libfibre.Runtime.Word
import Libfibre.Schemes.Threads
import Libfibre.Schemes.Transition
import Mathlib.Data.Fintype.EquivFin
import Mathlib.Tactic.SplitIfs

/-! `SpinBarrier` (`SpinLocks.h`): `target` threads call `wait` round after round. The fetch-and-add and each
    read of `counter` in the loop are one step each; all of it is `size_t` arithmetic.

    A thread spins for the next multiple of `target`. `counter` wraps at 2^64, and `cnt % target` is taken
    of what is left: the rounds line up across the wrap exactly if `target` divides 2^64. -/

namespace Libfibre.SpinBarrier
open Transition Threads Word

/-- Where a thread is: outside of `wait`, or in its loop. -/
inductive Pc where
  | out
  | spin (cnt tgt : ℕ)
  deriving DecidableEq

structure State (T : Type) where
  counter : ℕ
  pc : T → Pc
  made : ℕ                  -- history: how many calls have been made
  calls : T → ℕ             -- history: and by whom
  results : T → List Bool   -- history: what the calls of each thread have returned

inductive Action (T : Type) where
  | wait (t : T)
  | next (t : T)

section Model
variable {T : Type} [DecidableEq T]

/-- `t` calls `wait`: `cnt` is fetched and `tgt` computed of it. -/
def State.wait (target : ℕ) (s : State T) (t : T) : State T :=
  { counter := word (s.counter + 1)
    pc := Function.update s.pc t (.spin s.counter (word (s.counter + target - s.counter % target)))
    made := s.made + 1
    calls := Function.update s.calls t (s.calls t + 1)
    results := s.results }

/-- `return (cnt == tgt - 1)` -/
def State.leave (s : State T) (t : T) (cnt tgt : ℕ) : State T :=
  { s with
    pc := Function.update s.pc t .out
    results := Function.update s.results t (s.results t ++ [decide (cnt = minus tgt 1)]) }

def step (target : ℕ) (s : State T) : Action T → Option (State T)
  | .wait t =>
    match s.pc t with
    | .out => some (s.wait target t)
    | .spin _ _ => none
  | .next t =>
    match s.pc t with
    | .out => none
    | .spin cnt tgt => if positive (minus tgt s.counter) then some s else some (s.leave t cnt tgt)

/-- A new barrier. -/
def start : State T := ⟨0, fun _ => .out, 0, fun _ => 0, fun _ => []⟩

def spinBarrier (target : ℕ) : System (State T) (Action T) where
  init s := s = start
  step := step target

end Model

/-! ### What the barrier is for -/

variable {T : Type}

/-- The `k`-th call of each thread belongs to round `k`. No call returns before all threads have made the
    one of its round, none spins on once they have, and of the calls of a round one returns `true`. -/
structure Correct (s : State T) : Prop where
  early : ∀ t u, (s.results t).length ≤ s.calls u
  released : ∀ t cnt tgt, s.pc t = .spin cnt tgt → (∀ u, s.calls t ≤ s.calls u) →
    positive (minus tgt s.counter) = false
  once : ∀ (k : ℕ) t u, (s.results t)[k]? = some true → (s.results u)[k]? = some true → t = u
  someone : ∀ k : ℕ, (∀ u, k < (s.results u).length) → ∃ t, (s.results t)[k]? = some true

/-- A call is made before `counter` has wrapped, or by one of a number of threads that divides 2^64. -/
def Lined (target : ℕ) (s : State T) : Action T → Prop
  | .wait _ => target ∣ 2 ^ 64 ∨ target ≤ 2 ^ 63 ∧ s.made < 2 ^ 64
  | .next _ => True

/-- INVARIANT: all calls of the first `made / target` rounds have been made, the last of round `k` by
    `closers[k]`, and `made % target` calls of the next round. -/
structure Inv [Fintype T] (target : ℕ) (s : State T) (closers : List T) : Prop where
  counter : s.counter = word s.made
  calls : ∀ u, s.calls u = s.made / target ∨ s.calls u = s.made / target + 1
  ahead : (Finset.univ.filter fun u => s.calls u = s.made / target + 1).card = s.made % target
  out : ∀ u, s.pc u = .out → s.calls u = s.made / target ∧ (s.results u).length = s.calls u
  spin : ∀ u cnt tgt, s.pc u = .spin cnt tgt → (s.results u).length + 1 = s.calls u ∧
    tgt = word (s.calls u * target) ∧ (cnt = minus tgt 1 ↔ closers[s.calls u - 1]? = some u)
  rounds : closers.length = s.made / target
  results : ∀ u (k : ℕ) b, (s.results u)[k]? = some b → (b = true ↔ closers[k]? = some u)

/-! ### The threshold -/

section Threshold
variable {n target : ℕ}

/-- Where the rounds line up, a call spins for the end of its round. -/
theorem threshold (h : target ∣ 2 ^ 64 ∨ n < 2 ^ 64) :
    word (word n + target - word n % target) = word ((n / target + 1) * target) := by
  have hnext : n + target - n % target = (n / target + 1) * target := by
    have hdiv := Nat.div_add_mod' n target
    have hle : n % target ≤ n := Nat.mod_le n target
    rw [Nat.succ_mul]
    omega
  rcases h with hdvd | hlt
  · have hmod : word n % target = n % target := Nat.mod_mod_of_dvd n hdvd
    have hle : word n % target ≤ word n := Nat.mod_le _ _
    have hle' : n % target ≤ n := Nat.mod_le _ _
    rw [← hnext, hmod]
    simp only [word] at *
    omega
  · rw [word_of_lt hlt, hnext]

/-- The last call of a round has counted to one less than the threshold. -/
theorem last_iff (hpos : 0 < target) (hlt : target < 2 ^ 64) :
    word n = minus (word ((n / target + 1) * target)) 1 ↔ n % target + 1 = target := by
  have hdiv := Nat.div_add_mod' n target
  have hmod := Nat.mod_lt n hpos
  have hend : (n / target + 1) * target = n + (target - n % target) := by
    rw [Nat.succ_mul]
    omega
  rw [hend, minus, word, word, word]
  omega

end Threshold

section Steps
variable [Fintype T] {target : ℕ} {s : State T} {closers : List T} {t u : T} {cnt tgt : ℕ}

/-- Nobody has returned from a round that has not been completed. -/
theorem Inv.returned (h : Inv target s closers) (u : T) : (s.results u).length ≤ s.made / target := by
  cases hu : s.pc u with
  | out =>
    obtain ⟨hcalls, hlength⟩ := h.out u hu
    omega
  | spin cnt tgt =>
    have hlength := (h.spin u cnt tgt hu).1
    have hcalls := h.calls u
    omega

/-- Some thread has not called for the round that is going on. -/
theorem Inv.behind (h : Inv target s closers) (hcard : Fintype.card T = target) (hpos : 0 < target) :
    ∃ u, s.calls u = s.made / target := by
  by_contra hnone
  have hall : ∀ u ∈ Finset.univ, s.calls u = s.made / target + 1 := by
    intro u _
    exact (h.calls u).resolve_left fun hu => hnone ⟨u, hu⟩
  have hahead := h.ahead
  have hmod := Nat.mod_lt s.made hpos
  rw [Finset.filter_true_of_mem hall, Finset.card_univ] at hahead
  omega

/-- A call for a round that has been completed is let go. -/
theorem Inv.lets_go (h : Inv target s closers) (hpos : 0 < target) (hle : target ≤ 2 ^ 63)
    (hu : s.pc u = .spin cnt tgt) (hcalls : s.calls u = s.made / target) :
    positive (minus tgt s.counter) = false := by
  obtain ⟨-, htgt, -⟩ := h.spin u cnt tgt hu
  have hdiv := Nat.div_add_mod' s.made target
  have hmod := Nat.mod_lt s.made hpos
  rw [htgt, h.counter, hcalls]
  exact not_ahead (by omega) (by omega)

/-- A call for the round that is going on is not. -/
theorem Inv.holds_back (h : Inv target s closers) (hpos : 0 < target) (hle : target ≤ 2 ^ 63)
    (hu : s.pc u = .spin cnt tgt) (hcalls : s.calls u = s.made / target + 1) :
    positive (minus tgt s.counter) = true := by
  obtain ⟨-, htgt, -⟩ := h.spin u cnt tgt hu
  have hdiv := Nat.div_add_mod' s.made target
  have hmod := Nat.mod_lt s.made hpos
  have hsome : 0 < s.made % target := by
    rw [← h.ahead, Finset.card_pos]
    exact ⟨u, Finset.mem_filter.mpr ⟨Finset.mem_univ u, hcalls⟩⟩
  have hend : (s.made / target + 1) * target = s.made + (target - s.made % target) := by
    rw [Nat.succ_mul]
    omega
  rw [htgt, h.counter, hcalls, hend, minus_word (by omega) (by omega), positive_iff]
  omega

theorem Inv.correct (h : Inv target s closers) (hcard : Fintype.card T = target) (hpos : 0 < target)
    (hle : target ≤ 2 ^ 63) : Correct s where
  early t u := by
    have hreturned := h.returned t
    have hcalls := h.calls u
    omega
  released t cnt tgt ht hall := by
    obtain ⟨u, hu⟩ := h.behind hcard hpos
    have hcalls := h.calls t
    have hle' := hall u
    exact h.lets_go hpos hle ht (by omega)
  once k t u ht hu := by
    have htk := (h.results t k true ht).mp rfl
    have huk := (h.results u k true hu).mp rfl
    exact Option.some.inj (htk.symm.trans huk)
  someone k hall := by
    obtain ⟨v, -⟩ := h.behind hcard hpos
    have hlt : k < closers.length := by
      have hreturned := h.returned v
      have hv := hall v
      rw [h.rounds]
      omega
    obtain ⟨c, hc⟩ : ∃ c, closers[k]? = some c := ⟨_, List.getElem?_eq_getElem hlt⟩
    obtain ⟨b, hb⟩ : ∃ b, (s.results c)[k]? = some b := ⟨_, List.getElem?_eq_getElem (hall c)⟩
    have htrue := (h.results c k b hb).mpr hc
    exact ⟨c, htrue ▸ hb⟩

/-! ### One thread moves -/

variable [DecidableEq T]

/-- STEP: a call of a completed round returns. -/
theorem Inv.leave (h : Inv target s closers) (hu : s.pc u = .spin cnt tgt)
    (hcalls : s.calls u = s.made / target) : Inv target (s.leave u cnt tgt) closers := by
  obtain ⟨hlength, -, hlast⟩ := h.spin u cnt tgt hu
  refine ⟨h.counter, h.calls, h.ahead, ?_, ?_, h.rounds, ?_⟩
  · intro v hv
    rcases eq_or_ne v u with rfl | hvu
    · refine ⟨hcalls, ?_⟩
      simp only [State.leave, Function.update_self, List.length_append, List.length_singleton]
      exact hlength
    · simp only [State.leave, Function.update_of_ne hvu] at hv ⊢
      exact h.out v hv
  · intro v cnt' tgt' hv
    rcases eq_or_ne v u with rfl | hvu
    · simp only [State.leave, Function.update_self, reduceCtorEq] at hv
    · simp only [State.leave, Function.update_of_ne hvu] at hv ⊢
      exact h.spin v cnt' tgt' hv
  · intro v k b hb
    rcases eq_or_ne v u with rfl | hvu
    · simp only [State.leave, Function.update_self] at hb
      rw [List.getElem?_append] at hb
      split_ifs at hb with hk
      · exact h.results v k b hb
      · obtain ⟨hlt, rfl⟩ := List.getElem?_eq_some_iff.mp hb
        rw [List.length_singleton] at hlt
        have hkey : k = s.calls v - 1 := by omega
        rw [List.getElem_singleton, decide_eq_true_eq, hkey]
        exact hlast
    · simp only [State.leave, Function.update_of_ne hvu] at hb
      exact h.results v k b hb

/-- Those who have called for the round are one more. -/
theorem Inv.filter_insert (h : Inv target s closers) (hu : s.pc u = .out) :
    (Finset.univ.filter fun v => (s.wait target u).calls v = s.made / target + 1).card =
      s.made % target + 1 := by
  have hcalls := (h.out u hu).1
  have hnot : u ∉ Finset.univ.filter fun v => s.calls v = s.made / target + 1 := by
    simp [hcalls]
  rw [← h.ahead, ← Finset.card_insert_of_notMem hnot]
  congr 1
  ext v
  rw [Finset.mem_insert, Finset.mem_filter, Finset.mem_filter]
  rcases eq_or_ne v u with rfl | hvu
  · simp [State.wait, hcalls]
  · simp [State.wait, hvu]

/-- What a call that is made leaves as it is. -/
theorem Inv.wait_keeps (h : Inv target s closers) (hpos : 0 < target) (hlt : target < 2 ^ 64)
    (hu : s.pc u = .out) (hlined : target ∣ 2 ^ 64 ∨ s.made < 2 ^ 64) {closers' : List T}
    (hclosers : closers' = closers ++ if s.made % target + 1 = target then [u] else []) :
    (∀ v cnt tgt, (s.wait target u).pc v = .spin cnt tgt →
      ((s.wait target u).results v).length + 1 = (s.wait target u).calls v ∧
      tgt = word ((s.wait target u).calls v * target) ∧
      (cnt = minus tgt 1 ↔ closers'[(s.wait target u).calls v - 1]? = some v)) ∧
    (∀ v (k : ℕ) b, ((s.wait target u).results v)[k]? = some b →
      (b = true ↔ closers'[k]? = some v)) := by
  obtain ⟨hcalls, hlength⟩ := h.out u hu
  have hold : ∀ k, k < s.made / target → closers'[k]? = closers[k]? := by
    intro k hk
    rw [hclosers, List.getElem?_append_left (by rw [h.rounds]; exact hk)]
  have hnew : closers'[s.made / target]? = some u ↔ s.made % target + 1 = target := by
    rw [hclosers, List.getElem?_append_right h.rounds.le, h.rounds, Nat.sub_self]
    split_ifs with hlast <;> simp [hlast]
  constructor
  · intro v cnt tgt hv
    rcases eq_or_ne v u with rfl | hvu
    · simp only [State.wait, Function.update_self, Pc.spin.injEq] at hv ⊢
      obtain ⟨rfl, rfl⟩ := hv
      rw [h.counter, threshold hlined, last_iff hpos hlt, hcalls, Nat.add_sub_cancel]
      exact ⟨by rw [hlength, hcalls], rfl, hnew.symm⟩
    · simp only [State.wait, Function.update_of_ne hvu] at hv ⊢
      obtain ⟨hres, htgt, hiff⟩ := h.spin v cnt tgt hv
      refine ⟨hres, htgt, hiff.trans ?_⟩
      rcases h.calls v with hv' | hv'
      · rw [hold _ (by omega)]
      · -- the round of `v` goes on: it has been completed by `u`, if at all
        rw [hv', Nat.add_sub_cancel]
        refine iff_of_false ?_ fun hsome => ?_
        · rw [List.getElem?_eq_none h.rounds.le]
          simp
        · have hmine := hsome
          rw [hclosers, List.getElem?_append_right h.rounds.le, h.rounds, Nat.sub_self] at hmine
          split_ifs at hmine
          · exact hvu (Option.some.inj hmine).symm
          · cases hmine
  · intro v k b hb
    have hk : k < (s.results v).length := (List.getElem?_eq_some_iff.mp hb).1
    rw [hold k (Nat.lt_of_lt_of_le hk (h.returned v))]
    exact h.results v k b hb

omit [Fintype T] in
theorem wait_out {v : T} (hv : (s.wait target u).pc v = .out) : v ≠ u ∧ s.pc v = .out := by
  rcases eq_or_ne v u with rfl | hvu
  · simp only [State.wait, Function.update_self, reduceCtorEq] at hv
  · simp only [State.wait, Function.update_of_ne hvu] at hv
    exact ⟨hvu, hv⟩

/-- STEP: a call is made that is not the last one of its round. -/
theorem Inv.join (h : Inv target s closers) (hpos : 0 < target) (hlt : target < 2 ^ 64)
    (hu : s.pc u = .out) (hlined : target ∣ 2 ^ 64 ∨ s.made < 2 ^ 64)
    (hlast : s.made % target + 1 ≠ target) : Inv target (s.wait target u) closers := by
  have hnone : closers = closers ++ if s.made % target + 1 = target then [u] else [] := by
    rw [if_neg hlast, List.append_nil]
  obtain ⟨hspin, hresults⟩ := h.wait_keeps hpos hlt hu hlined hnone
  obtain ⟨hquot, hrem⟩ :
      (s.made + 1) / target = s.made / target ∧ (s.made + 1) % target = s.made % target + 1 := by
    have hmod := Nat.mod_lt s.made hpos
    have hdiv := Nat.div_add_mod s.made target
    exact (Nat.div_mod_unique hpos).mpr ⟨by omega, by omega⟩
  have hmade : (s.wait target u).made / target = s.made / target := hquot
  refine ⟨?_, ?_, ?_, ?_, hspin, ?_, hresults⟩
  · rw [State.wait, h.counter, word_succ]
  · intro v
    rw [hmade]
    rcases eq_or_ne v u with rfl | hvu
    · simp [State.wait, (h.out v hu).1]
    · simp only [State.wait, Function.update_of_ne hvu]
      exact h.calls v
  · rw [hmade, h.filter_insert hu]
    exact hrem.symm
  · intro v hv
    obtain ⟨hvu, hv⟩ := wait_out hv
    rw [hmade]
    simp only [State.wait, Function.update_of_ne hvu]
    exact h.out v hv
  · rw [hmade, h.rounds]

/-- STEP: the last call of a round is made. -/
theorem Inv.fill (h : Inv target s closers) (hcard : Fintype.card T = target) (hpos : 0 < target)
    (hlt : target < 2 ^ 64) (hu : s.pc u = .out) (hlined : target ∣ 2 ^ 64 ∨ s.made < 2 ^ 64)
    (hlast : s.made % target + 1 = target) : Inv target (s.wait target u) (closers ++ [u]) := by
  have hsome : closers ++ [u] = closers ++ if s.made % target + 1 = target then [u] else [] := by
    rw [if_pos hlast]
  obtain ⟨hspin, hresults⟩ := h.wait_keeps hpos hlt hu hlined hsome
  obtain ⟨hquot, hrem⟩ :
      (s.made + 1) / target = s.made / target + 1 ∧ (s.made + 1) % target = 0 := by
    have hdiv := Nat.div_add_mod s.made target
    refine (Nat.div_mod_unique hpos).mpr ⟨?_, hpos⟩
    rw [Nat.mul_succ]
    omega
  have hall : ∀ v, (s.wait target u).calls v = s.made / target + 1 := by
    have hfilter := (h.filter_insert hu).trans (hlast.trans hcard.symm)
    intro v
    have hv := Finset.mem_univ v
    rw [← (Finset.card_eq_iff_eq_univ _).mp hfilter, Finset.mem_filter] at hv
    exact hv.2
  have hmade : (s.wait target u).made / target = s.made / target + 1 := hquot
  refine ⟨?_, ?_, ?_, ?_, hspin, ?_, hresults⟩
  · rw [State.wait, h.counter, word_succ]
  · intro v
    rw [hmade]
    exact .inl (hall v)
  · rw [hmade, Finset.filter_false_of_mem, Finset.card_empty]
    · exact hrem.symm
    · intro v _ hv
      rw [hall v] at hv
      omega
  · intro v hv
    obtain ⟨hvu, hv⟩ := wait_out hv
    have hold := (h.out v hv).1
    have hnew := hall v
    simp only [State.wait, Function.update_of_ne hvu] at hnew
    omega
  · rw [hmade, List.length_append, h.rounds, List.length_singleton]

/-- STEP: a call is made. -/
theorem Inv.wait (h : Inv target s closers) (hcard : Fintype.card T = target) (hpos : 0 < target)
    (hlt : target < 2 ^ 64) (hu : s.pc u = .out) (hlined : target ∣ 2 ^ 64 ∨ s.made < 2 ^ 64) :
    ∃ closers', Inv target (s.wait target u) closers' := by
  by_cases hlast : s.made % target + 1 = target
  · exact ⟨_, h.fill hcard hpos hlt hu hlined hlast⟩
  · exact ⟨_, h.join hpos hlt hu hlined hlast⟩

theorem inv_step (hcard : Fintype.card T = target) (hpos : 0 < target) (h : Inv target s closers)
    {a : Action T} {s' : State T} (hlined : Lined target s a) (hle : target ≤ 2 ^ 63)
    (hs : step target s a = some s') : ∃ closers', Inv target s' closers' := by
  cases a with
  | wait u =>
    cases hu : s.pc u with
    | out =>
      simp only [step, hu, Option.some.injEq] at hs
      subst hs
      exact h.wait hcard hpos (by omega) hu (hlined.imp_right And.right)
    | spin cnt tgt =>
      simp only [step, hu, reduceCtorEq] at hs
  | next u =>
    cases hu : s.pc u with
    | out => simp only [step, hu, reduceCtorEq] at hs
    | spin cnt tgt =>
      simp only [step, hu] at hs
      split_ifs at hs with hpositive
      · obtain rfl := Option.some.inj hs
        exact ⟨closers, h⟩
      · obtain rfl := Option.some.inj hs
        have hcalls : s.calls u = s.made / target :=
          (h.calls u).resolve_right fun hnext => hpositive (h.holds_back hpos hle hu hnext)
        exact ⟨closers, h.leave hu hcalls⟩

omit [DecidableEq T] in
theorem inv_start : Inv target (start : State T) [] where
  counter := rfl
  calls _ := .inl (Nat.zero_div _).symm
  ahead := by simp [start]
  out _ _ := ⟨(Nat.zero_div _).symm, rfl⟩
  spin _ _ _ hu := by cases hu
  rounds := (Nat.zero_div _).symm
  results _ _ _ hb := by cases hb

/-! ### Once round -/

/-- A thread that has not called for the round that is going on can call. -/
theorem Inv.comes_out (h : Inv target s closers) (hpos : 0 < target) (hle : target ≤ 2 ^ 63)
    (hr : Reach (spinBarrier target) s) (hcalls : s.calls u = s.made / target) :
    ∃ s', Reach (spinBarrier target) s' ∧ Inv target s' closers ∧ s'.made = s.made ∧
      s'.pc u = .out := by
  cases hu : s.pc u with
  | out => exact ⟨s, hr, h, rfl, hu⟩
  | spin cnt tgt =>
    have hstep : (spinBarrier target).step s (.next u) = some (s.leave u cnt tgt) := by
      simp [spinBarrier, step, hu, h.lets_go hpos hle hu hcalls]
    exact ⟨_, hr.step hstep, h.leave hu hcalls, rfl, by simp [State.leave]⟩

/-- Until `counter` wraps, calls go on being made. -/
theorem reach_made (hcard : Fintype.card T = target) (hpos : 0 < target) (hle : target ≤ 2 ^ 63)
    {n : ℕ} (hn : n ≤ 2 ^ 64) : ∃ (s : State T) (closers : List T),
      Reach (spinBarrier target) s ∧ Inv target s closers ∧ s.made = n := by
  induction n with
  | zero => exact ⟨start, [], Reach.start rfl, inv_start, rfl⟩
  | succ n ih =>
    obtain ⟨s, closers, hr, h, hmade⟩ := ih (by omega)
    obtain ⟨u, hu⟩ := h.behind hcard hpos
    obtain ⟨s', hr', h', hmade', hout⟩ := h.comes_out hpos hle hr hu
    have hstep : (spinBarrier target).step s' (.wait u) = some (s'.wait target u) := by
      simp [spinBarrier, step, hout]
    obtain ⟨closers', hinv⟩ := h'.wait hcard hpos (by omega) hout (.inr (by omega))
    exact ⟨_, closers', hr'.step hstep, hinv, by simp [State.wait, hmade', hmade]⟩

end Steps

/-- `counter` has wrapped in the middle of a round, and `j` calls have been made since. They spin for
    `target`, as if it was theirs to count on from 0. -/
structure Astray [Fintype T] (target : ℕ) (s : State T) (j : ℕ) : Prop where
  counter : s.counter = j
  calls : ∀ u, s.calls u = 2 ^ 64 / target ∨ s.calls u = 2 ^ 64 / target + 1
  ahead : (Finset.univ.filter fun u => s.calls u = 2 ^ 64 / target + 1).card = 2 ^ 64 % target + j
  behind : ∀ u, s.calls u = 2 ^ 64 / target →
    s.pc u = .out ∨ ∃ cnt, s.pc u = .spin cnt (word (2 ^ 64 / target * target))
  astray : 0 < j → ∃ u cnt, s.pc u = .spin cnt target ∧ s.calls u = 2 ^ 64 / target + 1

section Wrap
variable [Fintype T] {target : ℕ} {s : State T} {closers : List T} {t u : T} {cnt tgt j : ℕ}

theorem Inv.astray (h : Inv target s closers) (hmade : s.made = 2 ^ 64) : Astray target s 0 where
  counter := by
    rw [h.counter, hmade]
    decide
  calls := hmade ▸ h.calls
  ahead := hmade ▸ h.ahead
  behind u hu := by
    cases hpc : s.pc u with
    | out => exact .inl rfl
    | spin cnt tgt =>
      obtain ⟨-, htgt, -⟩ := h.spin u cnt tgt hpc
      exact .inr ⟨cnt, by rw [htgt, hu]⟩
  astray hj := absurd hj (Nat.lt_irrefl 0)

/-- While somebody has not called, the state is astray by less than a round. -/
theorem Astray.exists_behind (h : Astray target s j) (hcard : Fintype.card T = target)
    (hj : 2 ^ 64 % target + j < target) : ∃ u, s.calls u = 2 ^ 64 / target := by
  by_contra hnone
  have hall : ∀ u ∈ Finset.univ, s.calls u = 2 ^ 64 / target + 1 := by
    intro u _
    exact (h.calls u).resolve_left fun hu => hnone ⟨u, hu⟩
  have hahead := h.ahead
  rw [Finset.filter_true_of_mem hall, Finset.card_univ] at hahead
  omega

/-- Once all have called, those who have done so since the wrap spin on. -/
theorem Astray.not_correct (h : Astray target s j) (hcard : Fintype.card T = target)
    (hle : target ≤ 2 ^ 63) (hrem : 0 < 2 ^ 64 % target) (hpos : 0 < j)
    (hj : 2 ^ 64 % target + j = target) : ¬ Correct s := by
  intro hcorrect
  obtain ⟨u, cnt, hu, hcalls⟩ := h.astray hpos
  have hall : ∀ v, s.calls v = 2 ^ 64 / target + 1 := by
    have hahead := h.ahead.trans (hj.trans hcard.symm)
    intro v
    have hv := Finset.mem_univ v
    rw [← (Finset.card_eq_iff_eq_univ _).mp hahead, Finset.mem_filter] at hv
    exact hv.2
  have hgo := hcorrect.released u cnt target hu fun v => by rw [hall u, hall v]
  have hstay : positive (minus target s.counter) = true := by
    rw [h.counter, positive_iff, minus, word]
    omega
  rw [hstay] at hgo
  cases hgo

variable [DecidableEq T]

theorem Astray.comes_out (h : Astray target s j) (hle : target ≤ 2 ^ 63)
    (hj : 2 ^ 64 % target + j < target) (hr : Reach (spinBarrier target) s)
    (hu : s.calls u = 2 ^ 64 / target) :
    ∃ s', Reach (spinBarrier target) s' ∧ s'.counter = s.counter ∧ s'.calls = s.calls ∧
      s'.pc = Function.update s.pc u .out := by
  rcases h.behind u hu with hout | ⟨cnt, hspin⟩
  · exact ⟨s, hr, rfl, rfl, by rw [← hout, Function.update_eq_self]⟩
  · have hgo : positive (minus (word (2 ^ 64 / target * target)) s.counter) = false := by
      have hdiv := Nat.div_add_mod' (2 ^ 64) target
      have hcounter : s.counter = word (2 ^ 64 + j) := by
        rw [h.counter, word]
        omega
      rw [hcounter]
      exact not_ahead (by omega) (by omega)
    have hstep : (spinBarrier target).step s (.next u) =
        some (s.leave u cnt (word (2 ^ 64 / target * target))) := by
      simp only [spinBarrier, step, hspin, hgo, Bool.false_eq_true, if_false]
    exact ⟨_, hr.step hstep, rfl, rfl, rfl⟩

theorem Astray.next (h : Astray target s j) (hcard : Fintype.card T = target)
    (hle : target ≤ 2 ^ 63) (hj : 2 ^ 64 % target + j < target)
    (hr : Reach (spinBarrier target) s) :
    ∃ s' : State T, Reach (spinBarrier target) s' ∧ Astray target s' (j + 1) := by
  obtain ⟨u, hu⟩ := h.exists_behind hcard hj
  obtain ⟨s', hr', hcounter, hcalls, hpc⟩ := h.comes_out hle hj hr hu
  have hout : s'.pc u = .out := by rw [hpc, Function.update_self]
  have hstep : (spinBarrier target).step s' (.wait u) = some (s'.wait target u) := by
    simp [spinBarrier, step, hout]
  refine ⟨_, hr'.step hstep, ?_, ?_, ?_, ?_, ?_⟩
  · rw [State.wait, hcounter, h.counter]
    exact word_of_lt (by omega)
  · intro v
    rcases eq_or_ne v u with rfl | hvu
    · simp [State.wait, hcalls, hu]
    · simp only [State.wait, Function.update_of_ne hvu, hcalls]
      exact h.calls v
  · have hnot : u ∉ Finset.univ.filter fun v => s.calls v = 2 ^ 64 / target + 1 := by
      simp [hu]
    rw [← Nat.add_assoc, ← h.ahead, ← Finset.card_insert_of_notMem hnot]
    congr 1
    ext v
    rw [Finset.mem_insert, Finset.mem_filter, Finset.mem_filter]
    rcases eq_or_ne v u with rfl | hvu
    · simp [State.wait, hcalls, hu]
    · simp [State.wait, hcalls, hvu]
  · intro v hv
    rcases eq_or_ne v u with rfl | hvu
    · simp only [State.wait, Function.update_self, hcalls, hu] at hv
      omega
    · simp only [State.wait, Function.update_of_ne hvu, hcalls, hpc] at hv ⊢
      exact h.behind v hv
  · intro _
    refine ⟨u, j, ?_, by simp [State.wait, hcalls, hu]⟩
    have htarget : word (j + target - j % target) = target := by
      rw [Nat.mod_eq_of_lt (by omega), Nat.add_sub_cancel_left]
      exact word_of_lt (by omega)
    simp only [State.wait, Function.update_self, hcounter, h.counter, htarget]

/-- Where `target` does not divide 2^64, the round in which `counter` wraps goes wrong. -/
theorem goes_wrong (hcard : Fintype.card T = target) (hpos : 0 < target) (hle : target ≤ 2 ^ 63)
    (hrem : 0 < 2 ^ 64 % target) :
    ∃ s : State T, Reach (spinBarrier target) s ∧ ¬ Correct s := by
  have hmod := Nat.mod_lt (2 ^ 64) hpos
  have hall : ∀ j, 2 ^ 64 % target + j ≤ target →
      ∃ s : State T, Reach (spinBarrier target) s ∧ Astray target s j := by
    intro j
    induction j with
    | zero =>
      intro _
      obtain ⟨s, closers, hr, h, hmade⟩ := reach_made hcard hpos hle le_rfl
      exact ⟨s, hr, h.astray hmade⟩
    | succ j ih =>
      intro hj
      obtain ⟨s, hr, h⟩ := ih (by omega)
      exact h.next hcard hle (by omega) hr
  obtain ⟨s, hr, h⟩ := hall (target - 2 ^ 64 % target) (by omega)
  exact ⟨s, hr, h.not_correct hcard hle hrem (by omega) (by omega)⟩

/-- Where `ssize_t` does not hold `target`, the first call returns at once. -/
theorem too_many (hcard : Fintype.card T = target) (hlt : target < 2 ^ 64) (hmany : 2 ^ 63 < target) :
    ∃ s : State T, Reach (spinBarrier target) s ∧ ¬ Correct s := by
  obtain ⟨u, v, huv⟩ := Fintype.one_lt_card_iff.mp (by omega : 1 < Fintype.card T)
  have htarget : word target = target := word_of_lt hlt
  have hgo : positive (minus target 1) = false := by
    refine Bool.eq_false_iff.mpr fun hpositive => ?_
    rw [positive_iff, minus, word] at hpositive
    omega
  have he : exec (spinBarrier target) (start : State T) [.wait u, .next u] =
      some ((start.wait target u).leave u 0 target) := by
    have hone : word 1 = 1 := by decide
    simp [spinBarrier, step, start, State.wait, hone, hgo, htarget]
  refine ⟨_, (Reach.start rfl).exec he, fun hcorrect => ?_⟩
  have hearly := hcorrect.early u v
  simp [State.leave, State.wait, start, huv.symm] at hearly

omit [DecidableEq T] [Fintype T] in
theorem start_correct [Nonempty T] : Correct (start : State T) where
  early _ _ := Nat.zero_le _
  released _ _ _ hu := by cases hu
  once _ _ _ ht := by cases ht
  someone _ hall := by
    obtain ⟨t⟩ := ‹Nonempty T›
    cases hall t

/-- A proper divisor of 2^64 is half of it at most. -/
theorem dvd_le (hlt : target < 2 ^ 64) (hdvd : target ∣ 2 ^ 64) : target ≤ 2 ^ 63 := by
  obtain ⟨k, hk⟩ := hdvd
  have htwo : 2 ≤ k := by
    match k, hk with
    | 0, hk => rw [Nat.mul_zero] at hk; cases hk
    | 1, hk => rw [Nat.mul_one] at hk; omega
    | k + 2, _ => exact Nat.le_add_left 2 k
  have hle : target * 2 ≤ target * k := Nat.mul_le_mul_left target htwo
  omega

/-- INVARIANT, along a run: the calls are lined up. -/
theorem lined_run (hcard : Fintype.card T = target) (hpos : 0 < target) (hlt : target < 2 ^ 64)
    {as : List (Action T)} (h : Run (spinBarrier target) (Lined target) as s) : Correct s := by
  by_cases hle : target ≤ 2 ^ 63
  · have hinv : ∃ closers, Inv target s closers := by
      refine h.inv (I := fun s => ∃ closers, Inv target s closers) ?_ ?_
      · intro s hs
        subst hs
        exact ⟨[], inv_start⟩
      · intro s a s' hinv hlined hs
        obtain ⟨closers, hinv⟩ := hinv
        exact inv_step hcard hpos hinv hlined hle hs
    obtain ⟨closers, hinv⟩ := hinv
    exact hinv.correct hcard hpos hle
  · -- no call is lined up, and so none is made
    have hstart : s = start := by
      refine h.inv (I := fun s => s = start) (fun _ hs => hs) ?_
      intro s a s' hstart hlined hs
      subst hstart
      cases a with
      | wait u => exact absurd (hlined.elim (dvd_le hlt) And.left) hle
      | next u => cases hs
    have hone : Nonempty T := Fintype.card_pos_iff.mp (hcard ▸ hpos)
    rw [hstart]
    exact start_correct

/-- EXACTLY WHEN: the barrier works for all calls that are made before `counter` has wrapped, and for all
    calls at all exactly if `target` divides 2^64. -/
theorem spin_barrier (hcard : Fintype.card T = target) (hpos : 0 < target) (hlt : target < 2 ^ 64) :
    (∀ as (s : State T), Run (spinBarrier target) (Lined target) as s → Correct s) ∧
    ((∀ s : State T, Reach (spinBarrier target) s → Correct s) ↔ target ∣ 2 ^ 64) := by
  refine ⟨fun as s h => lined_run hcard hpos hlt h, ?_, ?_⟩
  · intro hall
    by_contra hdvd
    have hrem : 0 < 2 ^ 64 % target := Nat.pos_of_ne_zero fun h0 => hdvd (Nat.dvd_of_mod_eq_zero h0)
    obtain ⟨s, hr, hwrong⟩ : ∃ s : State T, Reach (spinBarrier target) s ∧ ¬ Correct s := by
      by_cases hle : target ≤ 2 ^ 63
      · exact goes_wrong hcard hpos hle hrem
      · exact too_many hcard hlt (by omega)
    exact hwrong (hall s hr)
  · intro hdvd s hr
    obtain ⟨as, hrun⟩ := hr
    refine lined_run hcard hpos hlt (hrun.mono fun s a _ => ?_)
    cases a with
    | wait u => exact .inl hdvd
    | next u => trivial

end Wrap

/-- Two threads may go on for ever. -/
theorem spin_barrier_two :
    2 ∣ 2 ^ 64 ∧ ∀ s : State Bool, Reach (spinBarrier 2) s → Correct s := by
  have hdvd : 2 ∣ 2 ^ 64 := by decide
  exact ⟨hdvd, (spin_barrier rfl (by decide) (by decide)).2.mpr hdvd⟩

/-- Three may not: 2^64 leaves 1. -/
theorem spin_barrier_wraps : ¬ ∀ s : State (Fin 3), Reach (spinBarrier 3) s → Correct s := by
  intro hall
  obtain ⟨s, hr, hwrong⟩ := goes_wrong (Fintype.card_fin 3) (by decide) (by decide) (by decide)
  exact hwrong (hall s hr)

end Libfibre.SpinBarrier
