import Mathlib.Tactic.Linarith
import Mathlib.Tactic.SplitIfs
import Mathlib.Algebra.Order.Group.Nat
import Libfibre.FastBarrier.Model
import Libfibre.Schemes.Threads

/-! The lock sections of the barrier. What is in the queue covers everything that notifiers still have to
    pop, because a fibre counts itself only after its push; and each section pops `target` fibres. -/

namespace Libfibre.FastBarrier
open Transition Tally

variable {F : Type}

/-! ### What is counted -/

def Pc.counts : Pc F → ℕ
  | .counting => 1
  | _ => 0

/-- A notifier whose round the counter still contains. -/
def Pc.reduces : Pc F → ℕ
  | .reducing => 1
  | _ => 0

/-- What a notifier has popped in its section. -/
def Pc.progress (target : ℕ) : Pc F → ℕ
  | .popping i _ => i
  | .racing i _ | .resuming i _ _ => i + 1
  | .unlocking _ => target
  | _ => 0

/-- What a notifier has still to pop. -/
def Pc.todo (target : ℕ) : Pc F → ℕ
  | .locking => target
  | .popping i _ => target - i
  | .racing i _ | .resuming i _ _ => target - (i + 1)
  | _ => 0

/-- In the lock section. -/
def Pc.holds : Pc F → Bool
  | .popping .. | .racing .. | .resuming .. | .unlocking _ => true
  | _ => false

/-- The loop's bound holds. -/
def Pc.inLoop (target : ℕ) : Pc F → Prop
  | .popping i _ | .resuming i _ _ => i < target
  | .racing i _ => i + 1 = target
  | _ => True

/-- INVARIANT: the queue holds what the counter and the notifiers stand for. -/
structure Counted [Fintype F] (target : ℕ) (s : State F) : Prop where
  queue : s.queue.length = s.counter + tally (Pc.todo target) s.pc + tally Pc.counts s.pc
  counter : s.counter / target = tally Pc.reduces s.pc

/-- INVARIANT: whoever is in a section has the lock, and the sections that are over are complete. -/
structure Sections (target : ℕ) (s : State F) : Prop where
  order : s.groups.flatten ++ s.group ++ s.queue = s.arrivals
  size : ∀ g ∈ s.groups, g.length = target
  lock : ∀ f, (s.pc f).holds = true ↔ s.lock = some f
  free : s.lock = none → s.group = []
  holder : ∀ f, s.lock = some f →
    s.group.length = (s.pc f).progress target ∧ (s.pc f).inLoop target

/-- The number of fibres that have been popped. -/
def State.popped (s : State F) : ℕ := s.groups.flatten.length + s.group.length

theorem length_flatten {target : ℕ} : ∀ {groups : List (List F)}, (∀ g ∈ groups, g.length = target) →
    groups.flatten.length = groups.length * target
  | [], _ => by simp
  | g :: groups, h => by
    rw [List.flatten_cons, List.length_append, h g (List.mem_cons_self ..),
      length_flatten fun g' hg' => h g' (List.mem_cons_of_mem g hg'), List.length_cons, Nat.succ_mul,
      Nat.add_comm]

theorem Sections.popped_eq {target : ℕ} {s : State F} (h : Sections target s) :
    s.popped = s.groups.length * target + s.group.length := by
  rw [State.popped, length_flatten h.size]

theorem Sections.popped_add {target : ℕ} {s : State F} (h : Sections target s) :
    s.popped + s.queue.length = s.arrivals.length := by
  rw [← h.order, List.length_append, List.length_append, State.popped]

theorem Pc.progress_add_todo {target : ℕ} {p : Pc F} (hholds : p.holds = true)
    (hloop : p.inLoop target) : p.progress target + p.todo target = target := by
  cases p <;> simp only [Pc.holds, Pc.inLoop, Pc.progress, Pc.todo, reduceCtorEq] at * <;> omega

/-- Who is popped has its group complete. -/
theorem Sections.complete [Fintype F] {target i : ℕ} {s : State F} (h : Sections target s)
    (hcounted : Counted target s) (hi : i < s.popped) : (i / target + 1) * target ≤ s.arrivals.length := by
  have hall := h.popped_add
  have hpopped := h.popped_eq
  obtain ⟨k, hk, hik⟩ : ∃ k, k * target ≤ s.arrivals.length ∧ i < k * target := by
    cases hlock : s.lock with
    | none =>
      rw [h.free hlock, List.length_nil] at hpopped
      exact ⟨s.groups.length, by omega, by omega⟩
    | some f =>
      obtain ⟨hgroup, hloop⟩ := h.holder f hlock
      have htodo := Pc.progress_add_todo ((h.lock f).mpr hlock) hloop
      have hle := le_tally (Pc.todo target) s.pc f
      have hqueue := hcounted.queue
      refine ⟨s.groups.length + 1, ?_, ?_⟩
      · rw [Nat.succ_mul]; omega
      · rw [Nat.succ_mul]; omega
  have hdiv : i / target < k := Nat.div_lt_of_lt_mul (by rwa [Nat.mul_comm])
  exact (Nat.mul_le_mul_right target hdiv).trans hk

/-! ### One fibre moves -/

section Steps
variable [DecidableEq F] {target : ℕ} {s s' : State F} {f : F} {q : Pc F}

theorem Counted.move [Fintype F] (h : Counted target s) (hpc : s'.pc = Function.update s.pc f q)
    (hqueue : s'.queue.length + s.counter + (s.pc f).todo target + (s.pc f).counts
      = s.queue.length + s'.counter + q.todo target + q.counts)
    (hcounter : s'.counter / target + (s.pc f).reduces = s.counter / target + q.reduces) :
    Counted target s' := by
  have htodo := tally_update (Pc.todo target) s.pc f q
  have hcounts := tally_update Pc.counts s.pc f q
  have hreduces := tally_update Pc.reduces s.pc f q
  have hold := h.queue
  have hratio := h.counter
  refine ⟨?_, ?_⟩
  · rw [hpc]; omega
  · rw [hpc]; omega

/-- The fibre stays outside the section, or goes on in it. -/
theorem Sections.move (h : Sections target s) (hpc : s'.pc = Function.update s.pc f q)
    (horder : s'.groups.flatten ++ s'.group ++ s'.queue = s'.arrivals)
    (hlock : s'.lock = s.lock ∧ s'.groups = s.groups) (hholds : q.holds = (s.pc f).holds)
    (hfree : s.lock = none → s'.group = s.group)
    (hgroup : q.holds = true → s'.group.length = q.progress target ∧ q.inLoop target)
    (hother : q.holds = false → s'.group = s.group) : Sections target s' := by
  obtain ⟨hl, hg⟩ := hlock
  refine ⟨horder, by rw [hg]; exact h.size, fun g => ?_, fun hn => ?_, fun g hn => ?_⟩
  · rw [hl, hpc, Threads.same_at (f := Pc.holds) hholds]
    exact h.lock g
  · rw [hl] at hn
    rw [hfree hn, h.free hn]
  · rw [hl] at hn
    rw [hpc]
    rcases eq_or_ne g f with rfl | hne
    · rw [Function.update_self]
      exact hgroup (by rw [hholds]; exact (h.lock g).mpr hn)
    · have hf : q.holds = false := by
        rw [hholds, Bool.eq_false_iff]
        intro hf
        have hfg := ((h.lock f).mp hf).symm.trans hn
        exact hne (Option.some.inj hfg).symm
      rw [Function.update_of_ne hne, hother hf]
      exact h.holder g hn

/-- The fibre moves outside of the sections. -/
theorem Sections.outside (h : Sections target s) (hpc : s'.pc = Function.update s.pc f q)
    (horder : s'.groups.flatten ++ s'.group ++ s'.queue = s'.arrivals)
    (hrest : s'.lock = s.lock ∧ s'.groups = s.groups ∧ s'.group = s.group) (hq : q.holds = false)
    (hold : (s.pc f).holds = false) : Sections target s' := by
  obtain ⟨hl, hg, hgroup⟩ := hrest
  exact h.move hpc horder ⟨hl, hg⟩ (hq.trans hold.symm) (fun _ => hgroup)
    (fun hh => by rw [hq] at hh; cases hh)
    fun _ => hgroup

/-- A section begins. -/
theorem Sections.enter (h : Sections target s) (htarget : 0 < target) (hpc : (s.pc f).holds = false)
    (hlock : s.lock = none) :
    Sections target (State.goto { s with lock := some f } f (.popping 0 true)) := by
  refine ⟨h.order, h.size, fun g => ?_, fun hn => ?_, fun g hn => ?_⟩
  · rcases eq_or_ne g f with rfl | hne
    · simp only [State.goto, Function.update_self]
      exact iff_of_true rfl trivial
    · simp only [State.goto, Function.update_of_ne hne]
      refine iff_of_false (fun hg => ?_) fun hg => hne (Option.some.inj hg).symm
      have hlg := (h.lock g).mp hg
      rw [hlock] at hlg
      cases hlg
  · cases hn
  · obtain rfl := Option.some.inj hn
    simp only [State.goto, Function.update_self]
    exact ⟨by rw [h.free hlock]; rfl, htarget⟩

/-- A section is over. -/
theorem Sections.leave {park : Bool} (h : Sections target s) (hpc : s.pc f = .unlocking park)
    (hs' : s'.pc = Function.update s.pc f q) (hq : q.holds = false)
    (hrest : s'.lock = none ∧ s'.groups = s.groups ++ [s.group] ∧ s'.group = [] ∧
      s'.queue = s.queue ∧ s'.arrivals = s.arrivals) : Sections target s' := by
  obtain ⟨hl, hg, hgroup, hqueue, harrivals⟩ := hrest
  have hmine : s.lock = some f := (h.lock f).mp (by rw [hpc]; rfl)
  have hsize := (h.holder f hmine).1
  rw [hpc] at hsize
  refine ⟨?_, fun g hg' => ?_, fun g => ?_, fun _ => hgroup, fun g hn => ?_⟩
  · have horder := h.order
    rw [hg, hgroup, hqueue, harrivals]
    simpa using horder
  · rw [hg, List.mem_append, List.mem_singleton] at hg'
    rcases hg' with hg' | rfl
    · exact h.size g hg'
    · exact hsize
  · rw [hl, hs']
    refine iff_of_false (fun hh => ?_) (by simp)
    rcases eq_or_ne g f with rfl | hne
    · rw [Function.update_self, hq] at hh
      cases hh
    · rw [Function.update_of_ne hne] at hh
      have hgf := ((h.lock g).mp hh).symm.trans hmine
      exact hne (Option.some.inj hgf)
  · rw [hl] at hn
    cases hn

/-! ### Every step -/

omit [DecidableEq F] in
theorem next_holds (i : ℕ) (park : Bool) : (next target i park : Pc F).holds = true := by
  rw [next]
  split_ifs <;> rfl

omit [DecidableEq F] in
theorem next_counts (i : ℕ) (park : Bool) :
    (next target i park : Pc F).counts = 0 ∧ (next target i park : Pc F).reduces = 0 := by
  rw [next]
  split_ifs <;> exact ⟨rfl, rfl⟩

omit [DecidableEq F] in
theorem next_progress {i : ℕ} (hi : i < target) (park : Bool) :
    (next target i park : Pc F).progress target = i + 1 ∧ (next target i park : Pc F).inLoop target ∧
      (next target i park : Pc F).todo target = target - (i + 1) := by
  rw [next]
  split_ifs with hlast
  · exact ⟨rfl, hlast, rfl⟩
  · refine ⟨?_, trivial, ?_⟩
    · show target = i + 1
      omega
    · show 0 = target - (i + 1)
      omega

/-- What the notifier does with the fibre that `pop` returns. -/
def popped (target : ℕ) (f g : F) (i : ℕ) (park : Bool) : Pc F :=
  if g = f then next target i false
  else if i = target - 1 ∧ park then .racing i g
  else .resuming i park g

theorem popped_progress {g : F} {i : ℕ} (hi : i < target) (park : Bool) :
    (popped target f g i park).holds = true ∧ (popped target f g i park).counts = 0 ∧
      (popped target f g i park).reduces = 0 ∧ (popped target f g i park).progress target = i + 1 ∧
      (popped target f g i park).inLoop target ∧
      (popped target f g i park).todo target = target - (i + 1) := by
  rw [popped]
  split_ifs with hself hlast
  · obtain ⟨hprogress, hloop, htodo⟩ := next_progress (F := F) hi false
    exact ⟨next_holds .., (next_counts ..).1, (next_counts ..).2, hprogress, hloop, htodo⟩
  · exact ⟨rfl, rfl, rfl, rfl, by rw [Pc.inLoop]; omega, rfl⟩
  · exact ⟨rfl, rfl, rfl, rfl, hi, rfl⟩

theorem pop_cons {g : F} {rest : List F} {i : ℕ} {park : Bool} (hq : s.queue = g :: rest) :
    pop target s f i park = State.goto { s with queue := rest, group := s.group ++ [g] } f
      (popped target f g i park) := by
  rw [pop, hq]
  rfl

theorem pop_nil {i : ℕ} {park : Bool} (hq : s.queue = []) : pop target s f i park = s := by
  rw [pop, hq]

/-- `resume` changes nothing but what the fibre is told. -/
theorem resume_cases {g : F} (hs : s.resume g = some s') :
    s.pc g = .parked ∧ s' = s.goto g .ready ∨
      s.pc g ≠ .parked ∧ s.resumedEarly g = false ∧
        s' = { s with resumedEarly := Function.update s.resumedEarly g true } := by
  rw [State.resume] at hs
  split_ifs at hs with hparked hearly
  · obtain rfl := Option.some.inj hs
    exact .inl ⟨hparked, rfl⟩
  · obtain rfl := Option.some.inj hs
    exact .inr ⟨hparked, Bool.eq_false_iff.mpr hearly, rfl⟩

theorem resume_pc {g : F} (hs : s.resume g = some s') (hpc : s.pc f ≠ .parked) :
    s'.pc f = s.pc f := by
  rcases resume_cases hs with ⟨hg, rfl⟩ | ⟨-, -, rfl⟩
  · refine Function.update_of_ne ?_ ..
    rintro rfl
    exact hpc hg
  · rfl

theorem Counted.resume [Fintype F] {g : F} (h : Counted target s) (hs : s.resume g = some s') :
    Counted target s' := by
  rcases resume_cases hs with ⟨hg, rfl⟩ | ⟨-, -, rfl⟩
  · exact h.move (f := g) rfl (by rw [hg]; rfl) (by rw [hg]; rfl)
  · exact ⟨h.queue, h.counter⟩

theorem Sections.resume {g : F} (h : Sections target s) (hs : s.resume g = some s') :
    Sections target s' := by
  rcases resume_cases hs with ⟨hg, rfl⟩ | ⟨-, -, rfl⟩
  · exact h.outside (f := g) rfl h.order ⟨rfl, rfl, rfl⟩ rfl (by rw [hg]; rfl)
  · exact ⟨h.order, h.size, h.lock, h.free, h.holder⟩

omit [DecidableEq F] in
/-- The holder's place in the loop. -/
theorem Sections.of_holds (h : Sections target s) (hholds : (s.pc f).holds = true) :
    s.group.length = (s.pc f).progress target ∧ (s.pc f).inLoop target :=
  h.holder f ((h.lock f).mp hholds)

/-- STEP: what the queue holds. -/
theorem Counted.step [Fintype F] {a : Action F} (h : Counted target s) (htarget : 0 < target)
    (hsections : Sections target s) (hs : step target s a = some s') : Counted target s' := by
  have hmove : ∀ {f : F} {p q : Pc F} {s' : State F}, s.pc f = p → s'.pc = Function.update s.pc f q →
      s'.queue.length + s.counter + p.todo target + p.counts
        = s.queue.length + s'.counter + q.todo target + q.counts →
      s'.counter / target + p.reduces = s.counter / target + q.reduces → Counted target s' := by
    rintro f p q s' rfl hpc hqueue hcounter
    exact h.move hpc hqueue hcounter
  cases a with
  | wait f =>
    obtain ⟨hpc, rfl⟩ := step_cases hs
    exact hmove hpc rfl rfl rfl
  | push f =>
    obtain ⟨hpc, rfl⟩ := step_cases hs
    refine hmove hpc rfl ?_ rfl
    simp only [State.goto, List.length_append, List.length_singleton, Pc.todo, Pc.counts]
    omega
  | count f =>
    obtain ⟨hpc, rfl⟩ := step_cases hs
    split_ifs with hnotify
    · refine hmove hpc rfl ?_ ?_
      · simp only [State.goto, Pc.todo, Pc.counts]
        omega
      · have hdiv := Nat.succ_div_of_not_dvd fun hd => hnotify (Nat.mod_eq_zero_of_dvd hd)
        simpa [State.goto, Pc.reduces] using hdiv
    · refine hmove hpc rfl ?_ ?_
      · simp only [State.goto, Pc.todo, Pc.counts]
        omega
      · have hdiv := Nat.succ_div_of_dvd (Nat.dvd_of_mod_eq_zero (not_not.mp hnotify))
        simpa [State.goto, Pc.reduces] using hdiv
  | reduce f =>
    obtain ⟨hpc, rfl⟩ := step_cases hs
    have hone : 1 ≤ s.counter / target := by
      have hle := le_tally Pc.reduces s.pc f
      rw [hpc] at hle
      rw [h.counter]
      exact hle
    have hle : target ≤ s.counter := by
      have := (Nat.le_div_iff_mul_le htarget).mp hone
      omega
    refine hmove hpc rfl ?_ ?_
    · simp only [State.goto, Pc.todo, Pc.counts]
      omega
    · have hdiv := Nat.sub_mul_div s.counter target 1
      rw [Nat.mul_one] at hdiv
      simp only [State.goto, Pc.reduces]
      omega
  | lock f =>
    obtain ⟨hpc, rfl⟩ := step_cases hs
    exact hmove hpc.1 rfl rfl rfl
  | pop f seen =>
    obtain ⟨i, park, hpc, rfl⟩ := step_cases hs
    split_ifs
    · cases hq : s.queue with
      | nil => rw [pop_nil hq]; exact h
      | cons g rest =>
        have hi : i < target := by
          have hloop := (hsections.of_holds (f := f) (by rw [hpc]; rfl)).2
          rwa [hpc] at hloop
        obtain ⟨-, hcounts, hreduces, -, -, htodo⟩ := popped_progress (f := f) (g := g) hi park
        rw [pop_cons hq]
        refine hmove hpc rfl ?_ ?_
        · rw [hcounts, htodo, hq]
          simp only [State.goto, List.length_cons, Pc.todo, Pc.counts]
          omega
        · rw [hreduces]
          rfl
    · exact h
  | raceResume f =>
    obtain ⟨i, g, hpc, rfl⟩ := step_cases hs
    exact hmove hpc rfl rfl rfl
  | resume f =>
    obtain ⟨i, park, g, hpc, t, ht, rfl⟩ := step_cases hs
    have hf := resume_pc ht (f := f) (by rw [hpc]; simp)
    have hi : i < target := by
      have hloop := (hsections.of_holds (f := f) (by rw [hpc]; rfl)).2
      rwa [hpc] at hloop
    obtain ⟨hcounts, hreduces⟩ : (next target i park : Pc F).counts = 0 ∧
        (next target i park : Pc F).reduces = 0 := next_counts i park
    refine (h.resume ht).move (f := f) rfl ?_ ?_
    · rw [hf, hpc, hcounts, (next_progress hi park).2.2]
      rfl
    · rw [hf, hpc, hreduces]
      rfl
  | unlock f =>
    obtain ⟨park, hpc, rfl⟩ := step_cases hs
    split_ifs
    · exact hmove hpc rfl rfl rfl
    · exact hmove hpc rfl rfl rfl
  | suspend f =>
    obtain ⟨hpc, rfl⟩ := step_cases hs
    split_ifs
    · exact hmove hpc rfl rfl rfl
    · exact hmove hpc rfl rfl rfl
  | run f =>
    obtain ⟨hpc, rfl⟩ := step_cases hs
    exact hmove hpc rfl rfl rfl

/-- STEP: the sections. -/
theorem Sections.step {a : Action F} (h : Sections target s) (htarget : 0 < target)
    (hs : step target s a = some s') : Sections target s' := by
  cases a with
  | wait f | count f | reduce f | run f =>
    obtain ⟨hpc, rfl⟩ := step_cases hs
    refine h.outside (f := f) rfl h.order ⟨rfl, rfl, rfl⟩ ?_ (by rw [hpc]; rfl)
    first
    | rfl
    | split_ifs <;> rfl
  | push f =>
    obtain ⟨hpc, rfl⟩ := step_cases hs
    refine h.outside (f := f) rfl ?_ ⟨rfl, rfl, rfl⟩ rfl (by rw [hpc]; rfl)
    simp only [State.goto]
    rw [← h.order, List.append_assoc _ s.queue]
  | lock f =>
    obtain ⟨⟨hpc, hlock⟩, rfl⟩ := step_cases hs
    exact h.enter htarget (by rw [hpc]; rfl) hlock
  | pop f seen =>
    obtain ⟨i, park, hpc, rfl⟩ := step_cases hs
    split_ifs
    · cases hq : s.queue with
      | nil => rw [pop_nil hq]; exact h
      | cons g rest =>
        have hholds : (s.pc f).holds = true := by rw [hpc]; rfl
        obtain ⟨hgroup, hi⟩ := h.of_holds hholds
        rw [hpc] at hgroup hi
        obtain ⟨hnew, -, -, hprogress, hloop, -⟩ := popped_progress (f := f) (g := g) hi park
        rw [pop_cons hq]
        refine h.move rfl ?_ ⟨rfl, rfl⟩ (hnew.trans hholds.symm) (fun hn => ?_) (fun _ => ?_)
          fun hn => ?_
        · have horder := h.order
          rw [hq] at horder
          simpa [State.goto] using horder
        · have hmine := (h.lock f).mp hholds
          rw [hn] at hmine
          cases hmine
        · rw [hprogress]
          simp only [State.goto, List.length_append, List.length_singleton]
          exact ⟨congrArg (· + 1) hgroup, hloop⟩
        · rw [hnew] at hn
          cases hn
    · exact h
  | raceResume f =>
    obtain ⟨i, g, hpc, rfl⟩ := step_cases hs
    obtain ⟨hgroup, hi⟩ := h.of_holds (f := f) (by rw [hpc]; rfl)
    rw [hpc] at hgroup hi
    refine h.move rfl h.order ⟨rfl, rfl⟩ (by rw [hpc]; rfl) (fun _ => rfl) (fun _ => ⟨hgroup, ?_⟩)
      fun _ => rfl
    exact lt_of_lt_of_eq (Nat.lt_succ_self i) hi
  | resume f =>
    obtain ⟨i, park, g, hpc, t, ht, rfl⟩ := step_cases hs
    have hf := resume_pc ht (f := f) (by rw [hpc]; simp)
    rw [hpc] at hf
    have ht' := h.resume ht
    obtain ⟨hgroup, hi⟩ := ht'.of_holds (f := f) (by rw [hf]; rfl)
    rw [hf] at hgroup hi
    obtain ⟨hprogress, hloop, -⟩ := next_progress (F := F) hi park
    refine ht'.move rfl ht'.order ⟨rfl, rfl⟩ (by rw [hf]; exact next_holds ..) (fun _ => rfl)
      (fun _ => ⟨hgroup.trans hprogress.symm, hloop⟩) fun _ => rfl
  | unlock f =>
    obtain ⟨park, hpc, rfl⟩ := step_cases hs
    split_ifs
    · exact h.leave hpc rfl rfl ⟨rfl, rfl, rfl, rfl, rfl⟩
    · exact h.leave hpc rfl rfl ⟨rfl, rfl, rfl, rfl, rfl⟩
  | suspend f =>
    obtain ⟨hpc, rfl⟩ := step_cases hs
    split_ifs
    · exact h.outside (f := f) rfl h.order ⟨rfl, rfl, rfl⟩ rfl (by rw [hpc]; rfl)
    · exact h.outside (f := f) rfl h.order ⟨rfl, rfl, rfl⟩ rfl (by rw [hpc]; rfl)

end Steps

end Libfibre.FastBarrier
