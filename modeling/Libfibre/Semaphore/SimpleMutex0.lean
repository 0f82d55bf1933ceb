import Libfibre.Schemes.Transition
import Libfibre.Schemes.Tally
import Mathlib.Tactic.Linarith
import Mathlib.Tactic.SplitIfs

/-! `SimpleMutex0` (`BlockingSync.h`, `Benaphore.h`): a benaphore over a `LimitedSemaphore0`, whose queue
    is used with a lock that does nothing. Each operation on the benaphore, each push, pop and
    resumption, and the two ends of a suspension are one step.

        out ──P──▶ pushing ──▶ waiting ──suspend──▶ waiting (parked)
         │ ▲          │pop, resume                    │pop, resume
         ▼ │          ▼                               ▼
         own ◀──── resumedEarly                     ready ──▶ own
         │ V
         └──▶ popping ──▶ waking

    A `release` that finds the counter negative keeps the mutex until it has popped a successor. -/

namespace Libfibre.SimpleMutex0
open Transition Tally

/-! ### The code -/

/-- Where a fibre is. -/
inductive Pc (F : Type) where
  | out
  | tryCas (c : ℤ)                   -- in `tryP`, before the compare-and-swap
  | pushing                          -- `ben.P` has failed: before `queue.push`
  | waiting (parked popped : Bool)   -- before, or after, the switch away in `suspend`
  | resumedEarly                     -- resumed, before `suspend`
  | ready                            -- resumed, in a ready queue
  | own
  | popping                          -- `ben.V` has failed: before `queue.pop`
  | waking (next : F)                -- before `next->resume`
  | switched                         -- has switched to `next`, in a ready queue
  deriving DecidableEq

/-- The benaphore's counter, the queue below it, and where each fibre is. -/
structure State (F : Type) where
  counter : ℤ
  queue : List F
  pc : F → Pc F

/-- A call begins, or goes on by one step. -/
inductive Action (F : Type) where
  | acquire (f : F)
  | tryAcquire (f : F)
  | tryCas (f : F)
  | push (f : F)
  | suspend (f : F)
  | run (f : F)
  | release (f : F)
  | pop (f : F) (seen : Bool)        -- `seen`: the queue shows its first element
  | resume (f : F)

variable {F : Type} [DecidableEq F]

/-- Fibre `f` goes to another place. -/
def State.goto (s : State F) (f : F) (p : Pc F) : State F :=
  { s with pc := Function.update s.pc f p }

/-- `next->resume<DirectSwitch>()`: where the two fibres are afterwards. -/
def resume (directSwitch : Bool) : Pc F → Option (Pc F × Pc F)
  | .waiting true true => some (if directSwitch then (.own, .switched) else (.ready, .out))
  | .waiting false true => some (.resumedEarly, .out)
  | _ => none

/-- One step, with either value of `DirectSwitch`. -/
def step (directSwitch : Bool) (s : State F) : Action F → Option (State F)
  | .acquire f =>
    if s.pc f = .out then
      some (State.goto { s with counter := s.counter - 1 } f (if 0 < s.counter then .own else .pushing))
    else none
  | .tryAcquire f =>
    if s.pc f = .out then some (s.goto f (if 1 ≤ s.counter then .tryCas s.counter else .out)) else none
  | .tryCas f =>
    match s.pc f with
    | .tryCas c =>
      if s.counter = c then some (State.goto { s with counter := c - 1 } f .own)
      else some (s.goto f .out)
    | _ => none
  | .push f =>
    if s.pc f = .pushing then
      some (State.goto { s with queue := s.queue ++ [f] } f (.waiting false false))
    else none
  | .suspend f =>
    match s.pc f with
    | .waiting false popped => some (s.goto f (.waiting true popped))
    | .resumedEarly => some (s.goto f .own)
    | _ => none
  | .run f =>
    match s.pc f with
    | .ready => some (s.goto f .own)
    | .switched => some (s.goto f .out)
    | _ => none
  | .release f =>
    if s.pc f = .own then
      some (State.goto { s with counter := s.counter + 1 } f
        (if 0 < s.counter + 1 then .out else .popping))
    else none
  | .pop f seen =>
    if s.pc f = .popping then
      match seen, s.queue with
      | true, next :: rest =>
        match s.pc next with
        | .waiting parked _ =>
          some (State.goto ({ s with queue := rest }.goto next (.waiting parked true)) f (.waking next))
        | _ => none
      | _, _ => some s
    else none
  | .resume f =>
    match s.pc f with
    | .waking next =>
      (resume directSwitch (s.pc next)).map fun r => (s.goto next r.1).goto f r.2
    | _ => none

/-- The constructed mutex. -/
def State.init : State F := ⟨1, [], fun _ => .out⟩

/-- Any number of fibres use the mutex. -/
def system (F : Type) [DecidableEq F] (directSwitch : Bool) : System (State F) (Action F) :=
  ⟨fun s => s = .init, step directSwitch⟩

/-! ### What is counted -/

/-- A fibre that has the mutex, from the pop that gives it to it. -/
def Pc.owns : Pc F → ℕ
  | .waiting _ true | .resumedEarly | .ready | .own => 1
  | _ => 0

/-- A fibre that is blocked or about to block. -/
def Pc.blocked : Pc F → ℕ
  | .pushing | .waiting _ false => 1
  | _ => 0

/-- A fibre in `V` of the inner semaphore, with no successor yet. -/
def Pc.pops : Pc F → ℕ
  | .popping => 1
  | _ => 0

/-- Has a node in the queue. -/
def Pc.queued : Pc F → Bool
  | .waiting _ false => true
  | _ => false

/-- Has been popped, and not run since. -/
def Pc.popped : Pc F → ℕ
  | .waiting _ true => 1
  | _ => 0

/-- Has popped a successor, and not resumed it. -/
def Pc.wakes : Pc F → ℕ
  | .waking _ => 1
  | _ => 0

/-- INVARIANT: one fibre at most has the mutex or gives it away. -/
structure Inv [Fintype F] (s : State F) : Prop where
  count : 1 - s.counter = tally Pc.owns s.pc + tally Pc.blocked s.pc
  token : tally Pc.owns s.pc + tally Pc.pops s.pc + (if 0 < s.counter then 1 else 0) = 1
  nodup : s.queue.Nodup
  queued : ∀ f, f ∈ s.queue ↔ (s.pc f).queued = true
  waking : ∀ f g, s.pc f = .waking g → (s.pc g).popped = 1
  wakes : tally Pc.wakes s.pc = tally Pc.popped s.pc
  seen : ∀ f c, s.pc f = .tryCas c → 1 ≤ c

/-! ### One fibre moves -/

section Steps
variable {directSwitch : Bool} {s s' : State F} {f g : F} {p : Pc F}

theorem goto_same (s : State F) (f : F) (p : Pc F) : (s.goto f p).pc f = p := Function.update_self ..

theorem goto_other (h : g ≠ f) (p : Pc F) : (s.goto f p).pc g = s.pc g := Function.update_of_ne h ..

omit [DecidableEq F] in
theorem Pc.ne_waking (h : p.wakes = 0) (g : F) : p ≠ .waking g := by
  rintro rfl
  cases h

variable [Fintype F]

/-- One fibre moves, and the counter with it; it neither enters nor leaves the queue. -/
theorem Inv.move (h : Inv s) {c : ℤ}
    (hcount : c + p.owns + p.blocked = s.counter + (s.pc f).owns + (s.pc f).blocked)
    (htoken : p.owns + p.pops + (if 0 < c then 1 else 0)
      = (s.pc f).owns + (s.pc f).pops + (if 0 < s.counter then 1 else 0))
    (hqueue : p.queued = (s.pc f).queued ∧ p.popped = (s.pc f).popped)
    (hwakes : p.wakes = 0 ∧ (s.pc f).wakes = 0) (hseen : ∀ c, p = .tryCas c → 1 ≤ c) :
    Inv (State.goto { s with counter := c } f p) := by
  obtain ⟨hqueued, hpopped⟩ := hqueue
  obtain ⟨hnew, hold⟩ := hwakes
  have howns := tally_update Pc.owns s.pc f p
  have hblocked := tally_update Pc.blocked s.pc f p
  have hpops := tally_update Pc.pops s.pc f p
  have hone := h.token
  have hall := h.count
  refine ⟨?_, ?_, h.nodup, fun g => ?_, fun g k hg => ?_, ?_, fun g d hg => ?_⟩
  · show 1 - c = tally Pc.owns (Function.update s.pc f p) + tally Pc.blocked (Function.update s.pc f p)
    omega
  · show tally Pc.owns (Function.update s.pc f p) + tally Pc.pops (Function.update s.pc f p)
      + (if 0 < c then 1 else 0) = 1
    omega
  · rcases eq_or_ne g f with rfl | hne
    · rw [goto_same, hqueued]
      exact h.queued g
    · rw [goto_other hne]
      exact h.queued g
  · have hgf : g ≠ f := by
      rintro rfl
      rw [goto_same] at hg
      exact Pc.ne_waking hnew k hg
    rw [goto_other hgf] at hg
    have hk := h.waking g k hg
    rcases eq_or_ne k f with rfl | hne
    · rw [goto_same, hpopped, hk]
    · rw [goto_other hne, hk]
  · have hw := tally_update Pc.wakes s.pc f p
    have hp := tally_update Pc.popped s.pc f p
    have heq := h.wakes
    simp only [State.goto]
    omega
  · rcases eq_or_ne g f with rfl | hne
    · rw [goto_same] at hg
      exact hseen d hg
    · rw [goto_other hne] at hg
      exact h.seen g d hg

/-- A fibre enters the queue. -/
theorem Inv.push (h : Inv s) (hpc : s.pc f = .pushing) :
    Inv (State.goto { s with queue := s.queue ++ [f] } f (.waiting false false)) := by
  have hnew : f ∉ s.queue := by
    rw [h.queued, hpc]
    simp [Pc.queued]
  have howns := tally_update Pc.owns s.pc f (.waiting false false)
  have hblocked := tally_update Pc.blocked s.pc f (.waiting false false)
  have hpops := tally_update Pc.pops s.pc f (.waiting false false)
  have hwakes := tally_update Pc.wakes s.pc f (.waiting false false)
  have hpopped := tally_update Pc.popped s.pc f (.waiting false false)
  rw [hpc] at howns hblocked hpops hwakes hpopped
  have hone := h.token
  have hall := h.count
  have heq := h.wakes
  refine ⟨?_, ?_, ?_, fun g => ?_, fun g k hg => ?_, ?_, fun g d hg => ?_⟩
  · dsimp only [State.goto]
    simp only [Pc.owns, Pc.blocked] at howns hblocked
    omega
  · simp only [Pc.owns, Pc.pops, add_zero] at howns hpops
    rw [← howns, ← hpops] at hone
    exact hone
  · exact List.nodup_append.mpr ⟨h.nodup, List.nodup_singleton f, by
      rintro a ha b hb rfl
      exact hnew (List.mem_singleton.mp hb ▸ ha)⟩
  · show g ∈ s.queue ++ [f] ↔ _
    rw [List.mem_append, List.mem_singleton, h.queued]
    rcases eq_or_ne g f with rfl | hne
    · rw [goto_same]
      exact iff_of_true (.inr rfl) rfl
    · rw [goto_other hne, or_iff_left hne]
  · have hgf : g ≠ f := by
      rintro rfl
      rw [goto_same] at hg
      cases hg
    rw [goto_other hgf] at hg
    have hk := h.waking g k hg
    have hkf : k ≠ f := by
      rintro rfl
      rw [hpc] at hk
      cases hk
    rw [goto_other hkf]
    exact hk
  · dsimp only [State.goto]
    simp only [Pc.wakes, Pc.popped] at hwakes hpopped
    omega
  · have hgf : g ≠ f := by
      rintro rfl
      rw [goto_same] at hg
      cases hg
    rw [goto_other hgf] at hg
    exact h.seen g d hg

/-! ### Two fibres move -/

theorem tally_pair (weight : Pc F → ℕ) (pc : F → Pc F) (hne : f ≠ g) (p q : Pc F) :
    tally weight (Function.update (Function.update pc g p) f q) + weight (pc g) + weight (pc f)
      = tally weight pc + weight p + weight q := by
  have hg := tally_update weight pc g p
  have hf := tally_update weight (Function.update pc g p) f q
  rw [Function.update_of_ne hne] at hf
  omega

omit [DecidableEq F] in
/-- The first of the queue is not the fibre that pops it. -/
theorem Inv.first (h : Inv s) {rest : List F} (hpc : s.pc f = .popping) (hq : s.queue = g :: rest) :
    (∃ parked, s.pc g = .waiting parked false) ∧ f ≠ g := by
  have hqueued := (h.queued g).mp (by rw [hq]; exact List.mem_cons_self ..)
  cases hg : s.pc g with
  | waiting parked popped =>
    rw [hg] at hqueued
    cases popped with
    | true => cases hqueued
    | false =>
      refine ⟨⟨parked, rfl⟩, ?_⟩
      rintro rfl
      rw [hg] at hpc
      cases hpc
  | _ => rw [hg] at hqueued; cases hqueued

omit [DecidableEq F] in
/-- The fibre that is about to be resumed waits. -/
theorem Inv.woken (h : Inv s) (hpc : s.pc f = .waking g) :
    (∃ parked, s.pc g = .waiting parked true) ∧ f ≠ g := by
  have hpopped := h.waking f g hpc
  cases hg : s.pc g with
  | waiting parked popped =>
    rw [hg] at hpopped
    cases popped with
    | false => cases hpopped
    | true =>
      refine ⟨⟨parked, rfl⟩, ?_⟩
      rintro rfl
      rw [hg] at hpc
      cases hpc
  | _ => rw [hg] at hpopped; cases hpopped

/-- A successor is popped, and has the mutex. -/
theorem Inv.pop (h : Inv s) {rest : List F} {parked : Bool} (hpc : s.pc f = .popping)
    (hq : s.queue = g :: rest) (hg : s.pc g = .waiting parked false) (hne : f ≠ g) :
    Inv (State.goto ({ s with queue := rest }.goto g (.waiting parked true)) f (.waking g)) := by
  have hsum := fun weight => tally_pair weight s.pc hne (.waiting parked true) (.waking g)
  have howns := hsum Pc.owns
  have hblocked := hsum Pc.blocked
  have hpops := hsum Pc.pops
  have hwakes := hsum Pc.wakes
  have hpopped := hsum Pc.popped
  rw [hpc, hg] at howns hblocked hpops hwakes hpopped
  have hone := h.token
  have hall := h.count
  have heq := h.wakes
  have hnodup := h.nodup
  rw [hq] at hnodup
  obtain ⟨hgrest, hrest⟩ := List.nodup_cons.mp hnodup
  set pc := Function.update (Function.update s.pc g (.waiting parked true)) f (.waking g) with hpc'
  have hf : pc f = .waking g := Function.update_self ..
  have hgnew : pc g = .waiting parked true := by
    rw [hpc', Function.update_of_ne hne.symm, Function.update_self]
  have hother : ∀ k, k ≠ f → k ≠ g → pc k = s.pc k := fun k hkf hkg => by
    rw [hpc', Function.update_of_ne hkf, Function.update_of_ne hkg]
  refine ⟨?_, ?_, hrest, fun k => ?_, fun k l hk => ?_, ?_, fun k d hk => ?_⟩
  · show 1 - s.counter = tally Pc.owns pc + tally Pc.blocked pc
    simp only [Pc.owns, Pc.blocked] at howns hblocked
    omega
  · show tally Pc.owns pc + tally Pc.pops pc + (if 0 < s.counter then 1 else 0) = 1
    simp only [Pc.owns, Pc.pops] at howns hpops
    omega
  · show k ∈ rest ↔ (pc k).queued = true
    have hold := h.queued k
    rw [hq, List.mem_cons] at hold
    rcases eq_or_ne k g with rfl | hkg
    · rw [hgnew]
      exact iff_of_false hgrest (by simp [Pc.queued])
    · rw [or_iff_right hkg] at hold
      rw [hold]
      rcases eq_or_ne k f with rfl | hkf
      · rw [hf, hpc]
        simp [Pc.queued]
      · rw [hother k hkf hkg]
  · show (pc l).popped = 1
    have hl : l = g ∨ (s.pc l).popped = 1 := by
      rcases eq_or_ne k f with rfl | hkf
      · have hkl := hf.symm.trans hk
        exact .inl (Pc.waking.inj hkl).symm
      · have hkg : k ≠ g := by
          rintro rfl
          have hkl := hgnew.symm.trans hk
          cases hkl
        exact .inr (h.waking k l ((hother k hkf hkg).symm.trans hk))
    rcases eq_or_ne l g with rfl | hlg
    · rw [hgnew]
      rfl
    · have hpop := hl.resolve_left hlg
      have hlf : l ≠ f := by
        rintro rfl
        rw [hpc] at hpop
        cases hpop
      rw [hother l hlf hlg, hpop]
  · show tally Pc.wakes pc = tally Pc.popped pc
    simp only [Pc.wakes, Pc.popped] at hwakes hpopped
    omega
  · rcases eq_or_ne k f with rfl | hkf
    · have hkd := hf.symm.trans hk
      cases hkd
    · rcases eq_or_ne k g with rfl | hkg
      · have hkd := hgnew.symm.trans hk
        cases hkd
      · exact h.seen k d ((hother k hkf hkg).symm.trans hk)

/-- At most one fibre is about to be resumed. -/
theorem Inv.waker (h : Inv s) {k l : F} (hpc : s.pc f = .waking g) (hk : s.pc k = .waking l) :
    k = f := by
  have hle : tally Pc.popped s.pc ≤ tally Pc.owns s.pc :=
    Finset.sum_le_sum fun i _ => by cases s.pc i with
      | waiting parked popped => cases popped <;> simp [Pc.popped, Pc.owns]
      | _ => simp [Pc.popped]
  have hone := h.token
  have heq := h.wakes
  exact unique_of_tally_le_one (w := Pc.wakes) (p := s.pc) (by omega) (by rw [hk]; exact Nat.one_pos)
    (by rw [hpc]; exact Nat.one_pos)

/-- The popped fibre and its waker go their ways. -/
theorem Inv.resume (h : Inv s) {p q : Pc F} {parked : Bool} (hpc : s.pc f = .waking g)
    (hg : s.pc g = .waiting parked true) (hne : f ≠ g) (hp : p.owns = 1 ∧ p.blocked = 0)
    (hp' : p.queued = false ∧ p.pops = 0 ∧ p.wakes = 0 ∧ p.popped = 0) (hpcas : ∀ c, p ≠ .tryCas c)
    (hq : q = .out ∨ q = .switched) : Inv ((s.goto g p).goto f q) := by
  obtain ⟨howns', hblocked'⟩ := hp
  obtain ⟨hqueued', hpops', hwakes', hpopped'⟩ := hp'
  have hsum := fun weight => tally_pair weight s.pc hne p q
  have howns := hsum Pc.owns
  have hblocked := hsum Pc.blocked
  have hpops := hsum Pc.pops
  have hwakes := hsum Pc.wakes
  have hpopped := hsum Pc.popped
  have hzero : q.owns = 0 ∧ q.blocked = 0 ∧ q.pops = 0 ∧ q.wakes = 0 ∧ q.popped = 0 ∧
      q.queued = false ∧ (∀ c, q ≠ .tryCas c) ∧ ∀ k, q ≠ .waking k := by
    rcases hq with rfl | rfl <;> exact ⟨rfl, rfl, rfl, rfl, rfl, rfl, by simp, by simp⟩
  obtain ⟨hq1, hq2, hq3, hq4, hq5, hq6, hq7, hq8⟩ := hzero
  rw [hpc, hg, howns', hq1] at howns
  rw [hpc, hg, hblocked', hq2] at hblocked
  rw [hpc, hg, hpops', hq3] at hpops
  rw [hpc, hg, hwakes', hq4] at hwakes
  rw [hpc, hg, hpopped', hq5] at hpopped
  have hone := h.token
  have hall := h.count
  have heq := h.wakes
  set pc := Function.update (Function.update s.pc g p) f q with hpc'
  have hf : pc f = q := Function.update_self ..
  have hgnew : pc g = p := by rw [hpc', Function.update_of_ne hne.symm, Function.update_self]
  have hother : ∀ k, k ≠ f → k ≠ g → pc k = s.pc k := fun k hkf hkg => by
    rw [hpc', Function.update_of_ne hkf, Function.update_of_ne hkg]
  refine ⟨?_, ?_, h.nodup, fun k => ?_, fun k l hk => ?_, ?_, fun k d hk => ?_⟩
  · show 1 - s.counter = tally Pc.owns pc + tally Pc.blocked pc
    simp only [Pc.owns, Pc.blocked] at howns hblocked
    omega
  · show tally Pc.owns pc + tally Pc.pops pc + (if 0 < s.counter then 1 else 0) = 1
    simp only [Pc.owns, Pc.pops] at howns hpops
    omega
  · show k ∈ s.queue ↔ (pc k).queued = true
    rw [h.queued k]
    rcases eq_or_ne k f with rfl | hkf
    · rw [hf, hq6, hpc]
      rfl
    · rcases eq_or_ne k g with rfl | hkg
      · rw [hgnew, hqueued', hg]
        rfl
      · rw [hother k hkf hkg]
  · exfalso
    rcases eq_or_ne k f with rfl | hkf
    · exact hq8 l (hf.symm.trans hk)
    · rcases eq_or_ne k g with rfl | hkg
      · exact Pc.ne_waking hwakes' l (hgnew.symm.trans hk)
      · exact hkf (h.waker hpc ((hother k hkf hkg).symm.trans hk))
  · show tally Pc.wakes pc = tally Pc.popped pc
    simp only [Pc.wakes, Pc.popped] at hwakes hpopped
    omega
  · rcases eq_or_ne k f with rfl | hkf
    · exact absurd (hf.symm.trans hk) (hq7 d)
    · rcases eq_or_ne k g with rfl | hkg
      · exact absurd (hgnew.symm.trans hk) (hpcas d)
      · exact h.seen k d ((hother k hkf hkg).symm.trans hk)

/-- STEP: every step keeps the invariant. -/
theorem Inv.step (h : Inv s) {a : Action F} (hs : step directSwitch s a = some s') : Inv s' := by
  have hall := h.count
  cases a with
  | acquire f =>
    obtain ⟨hpc, hs⟩ := Option.ite_none_right_eq_some.mp hs
    cases hs
    have hpos : 0 < s.counter → s.counter = 1 := by omega
    split_ifs with hopen
    · refine h.move ?_ ?_ (by rw [hpc]; exact ⟨rfl, rfl⟩) (by rw [hpc]; exact ⟨rfl, rfl⟩) (by simp)
      · rw [hpc, hpos hopen]; rfl
      · rw [hpc, hpos hopen]; rfl
    · refine h.move ?_ ?_ (by rw [hpc]; exact ⟨rfl, rfl⟩) (by rw [hpc]; exact ⟨rfl, rfl⟩) (by simp)
      · rw [hpc]; simp [Pc.owns, Pc.blocked]
      · rw [hpc, if_neg hopen, if_neg (by omega)]; rfl
  | tryAcquire f =>
    obtain ⟨hpc, hs⟩ := Option.ite_none_right_eq_some.mp hs
    cases hs
    split_ifs with hopen
    · refine h.move (by rw [hpc]; rfl) (by rw [hpc]; rfl) (by rw [hpc]; exact ⟨rfl, rfl⟩)
        (by rw [hpc]; exact ⟨rfl, rfl⟩) ?_
      rintro c ⟨⟩
      exact hopen
    · exact h.move (by rw [hpc]) (by rw [hpc]) (by rw [hpc]; exact ⟨rfl, rfl⟩)
        (by rw [hpc]; exact ⟨rfl, rfl⟩) (by simp)
  | tryCas f =>
    simp only [SimpleMutex0.step] at hs
    split at hs
    · rename_i c hpc
      have hc := h.seen f c hpc
      split_ifs at hs with hsame
      · cases hs
        obtain rfl : c = 1 := by omega
        refine h.move ?_ ?_ (by rw [hpc]; exact ⟨rfl, rfl⟩) (by rw [hpc]; exact ⟨rfl, rfl⟩) (by simp)
        · rw [hpc, hsame]; rfl
        · rw [hpc, hsame]; rfl
      · cases hs
        exact h.move (by rw [hpc]; rfl) (by rw [hpc]; rfl) (by rw [hpc]; exact ⟨rfl, rfl⟩)
          (by rw [hpc]; exact ⟨rfl, rfl⟩) (by simp)
    · cases hs
  | push f =>
    obtain ⟨hpc, hs⟩ := Option.ite_none_right_eq_some.mp hs
    cases hs
    exact h.push hpc
  | suspend f =>
    simp only [SimpleMutex0.step] at hs
    split at hs
    · rename_i popped hpc
      cases hs
      cases popped <;> exact h.move (by rw [hpc]; rfl) (by rw [hpc]; rfl)
        (by rw [hpc]; exact ⟨rfl, rfl⟩) (by rw [hpc]; exact ⟨rfl, rfl⟩) (by simp)
    · rename_i hpc
      cases hs
      exact h.move (by rw [hpc]; rfl) (by rw [hpc]; rfl) (by rw [hpc]; exact ⟨rfl, rfl⟩)
        (by rw [hpc]; exact ⟨rfl, rfl⟩) (by simp)
    · cases hs
  | run f =>
    simp only [SimpleMutex0.step] at hs
    split at hs
    · rename_i hpc
      cases hs
      exact h.move (by rw [hpc]; rfl) (by rw [hpc]; rfl) (by rw [hpc]; exact ⟨rfl, rfl⟩)
        (by rw [hpc]; exact ⟨rfl, rfl⟩) (by simp)
    · rename_i hpc
      cases hs
      exact h.move (by rw [hpc]; rfl) (by rw [hpc]; rfl) (by rw [hpc]; exact ⟨rfl, rfl⟩)
        (by rw [hpc]; exact ⟨rfl, rfl⟩) (by simp)
    · cases hs
  | release f =>
    obtain ⟨hpc, hs⟩ := Option.ite_none_right_eq_some.mp hs
    cases hs
    have hle : (s.pc f).owns ≤ tally Pc.owns s.pc := le_tally Pc.owns s.pc f
    have hone : (s.pc f).owns = 1 := by rw [hpc]; rfl
    have htoken := h.token
    have hshut : ¬ 0 < s.counter := by
      intro hopen
      rw [if_pos hopen] at htoken
      omega
    split_ifs with hopen
    · refine h.move ?_ ?_ (by rw [hpc]; exact ⟨rfl, rfl⟩) (by rw [hpc]; exact ⟨rfl, rfl⟩) (by simp)
      · rw [hpc]; simp [Pc.owns, Pc.blocked]
      · rw [hpc, if_pos hopen, if_neg hshut]; rfl
    · refine h.move ?_ ?_ (by rw [hpc]; exact ⟨rfl, rfl⟩) (by rw [hpc]; exact ⟨rfl, rfl⟩) (by simp)
      · rw [hpc]; simp [Pc.owns, Pc.blocked]
      · rw [hpc, if_neg hopen, if_neg hshut]; rfl
  | pop f seen =>
    obtain ⟨hpc, hs⟩ := Option.ite_none_right_eq_some.mp hs
    split at hs
    · rename_i g rest hq _
      obtain ⟨⟨parked, hg⟩, hne⟩ := h.first hpc hq
      rw [hg] at hs
      cases hs
      exact h.pop hpc hq hg hne
    · cases hs
      exact h
  | resume f =>
    simp only [SimpleMutex0.step] at hs
    split at hs
    · rename_i g hpc
      obtain ⟨⟨parked, hg⟩, hne⟩ := h.woken hpc
      rw [hg] at hs
      cases parked with
      | false =>
        cases hs
        exact h.resume hpc hg hne ⟨rfl, rfl⟩ ⟨rfl, rfl, rfl, rfl⟩ (by simp) (.inl rfl)
      | true =>
        cases directSwitch <;> cases hs
        · exact h.resume hpc hg hne ⟨rfl, rfl⟩ ⟨rfl, rfl, rfl, rfl⟩ (by simp) (.inl rfl)
        · exact h.resume hpc hg hne ⟨rfl, rfl⟩ ⟨rfl, rfl, rfl, rfl⟩ (by simp) (.inr rfl)
    · cases hs

omit [DecidableEq F] in
theorem inv_init : Inv (State.init : State F) := by
  have hzero : ∀ weight : Pc F → ℕ, weight .out = 0 → tally weight (State.init : State F).pc = 0 :=
    fun weight h => tally_eq_zero fun _ => h
  refine ⟨?_, ?_, List.nodup_nil, fun f => ?_, fun f g h => ?_, ?_, fun f c h => ?_⟩
  · rw [hzero Pc.owns rfl, hzero Pc.blocked rfl]
    rfl
  · rw [hzero Pc.owns rfl, hzero Pc.pops rfl]
    rfl
  · exact iff_of_false List.not_mem_nil (by simp [State.init, Pc.queued])
  · cases h
  · rw [hzero Pc.wakes rfl, hzero Pc.popped rfl]
  · cases h

/-! ### Every reachable state -/

/-- What the mutex is for: one owner, one consumer of the queue, and a counter that tells how many
    fibres are involved. -/
structure Sound (directSwitch : Bool) (s : State F) : Prop where
  count : 1 - s.counter = tally Pc.owns s.pc + tally Pc.blocked s.pc
  mutex : ∀ f g, 0 < (s.pc f).owns + (s.pc f).pops → 0 < (s.pc g).owns + (s.pc g).pops → f = g
  consumer : ∀ f g, s.pc f = .popping → s.pc g = .popping → f = g
  pop : ∀ f seen, s.pc f = .popping → (SimpleMutex0.step directSwitch s (.pop f seen)).isSome
  resume : ∀ f g, s.pc f = .waking g → (SimpleMutex0.step directSwitch s (.resume f)).isSome

theorem Inv.sound (h : Inv s) (directSwitch : Bool) : Sound directSwitch s := by
  have hsum : tally (fun p : Pc F => p.owns + p.pops) s.pc = tally Pc.owns s.pc + tally Pc.pops s.pc :=
    Finset.sum_add_distrib
  have hone := h.token
  have hmutex : ∀ f g, 0 < (s.pc f).owns + (s.pc f).pops → 0 < (s.pc g).owns + (s.pc g).pops →
      f = g := fun f g hf hg =>
    unique_of_tally_le_one (w := fun p : Pc F => p.owns + p.pops) (p := s.pc) (by omega) hf hg
  refine ⟨h.count, hmutex, fun f g hf hg => ?_, fun f seen hf => ?_, fun f g hf => ?_⟩
  · exact hmutex f g (by rw [hf]; exact Nat.one_pos) (by rw [hg]; exact Nat.one_pos)
  · simp only [SimpleMutex0.step, if_pos hf]
    split
    · rename_i g rest hq
      obtain ⟨⟨parked, hg⟩, -⟩ := h.first hf hq
      rw [hg]
      rfl
    · rfl
  · obtain ⟨⟨parked, hg⟩, -⟩ := h.woken hf
    simp only [SimpleMutex0.step, hf, hg]
    cases parked <;> rfl

/-- RUN: mutual exclusion and a single consumer, whatever the order of the steps. -/
theorem mutex_and_count (h : Reach (system F directSwitch) s) : Sound directSwitch s :=
  have hinv : Inv s := h.inv (fun s h0 => by cases h0; exact inv_init) fun _ _ _ hi hs => hi.step hs
  hinv.sound directSwitch

end Steps

/-- Fibre 0 releases while fibres 1 and 2 wait: before it pops, and with fibre 1 the owner. -/
theorem mutex_and_count_handover : ∃ s s' : State (Fin 3),
    s.pc 0 = .popping ∧ s.queue = [1, 2] ∧ s.counter = -1 ∧ Sound true s ∧
    SimpleMutex0.step true s (.pop 0 true) = some s' ∧
    s'.pc 0 = .waking 1 ∧ (s'.pc 1).owns = 1 ∧ s'.queue = [2] ∧ Sound true s' := by
  obtain ⟨s, hs, hstate⟩ := reach_of_exec (system (Fin 3) true) State.init
    [.acquire 0, .acquire 1, .acquire 2, .push 1, .push 2, .suspend 1, .release 0]
    (fun s => decide (s.pc 0 = .popping ∧ s.pc 1 = .waiting true false ∧ s.queue = [1, 2] ∧
      s.counter = -1)) rfl (by decide)
  obtain ⟨hpopping, hwaiting, hqueue, hcounter⟩ := of_decide_eq_true hstate
  have hpop : SimpleMutex0.step true s (.pop 0 true) = some
      (State.goto ({ s with queue := [2] }.goto 1 (.waiting true true)) 0 (.waking 1)) := by
    simp only [SimpleMutex0.step, if_pos hpopping, hqueue, hwaiting]
  exact ⟨s, _, hpopping, hqueue, hcounter, mutex_and_count hs, hpop, rfl, rfl, rfl,
    mutex_and_count (hs.step (a := .pop 0 true) hpop)⟩

/-- A release that looks for its successor has given its place in the counter back already: its fibre
    and the successor stand for one there. -/
theorem releaser_not_counted : ¬ ∀ (directSwitch : Bool) (s : State Bool),
    Reach (system Bool directSwitch) s →
      1 - s.counter = tally (fun p : Pc Bool => p.owns + p.pops) s.pc + tally Pc.blocked s.pc := by
  intro h
  obtain ⟨s, hs, hcount⟩ := reach_of_exec (system Bool false) State.init
    [.acquire true, .acquire false, .release true]
    (fun s => decide (1 - s.counter
      ≠ tally (fun p : Pc Bool => p.owns + p.pops) s.pc + tally Pc.blocked s.pc)) rfl (by decide)
  exact of_decide_eq_true hcount (h false s hs)

end Libfibre.SimpleMutex0
