import Libfibre.Schemes.Transition
import Libfibre.Runtime.BlockingQueue
import Libfibre.Schemes.Threads

/-! `Condition` (`BlockingSync.h`) as `fibre_cond_wait`, `fibre_cond_timedwait`, `fibre_cond_signal` and
    `fibre_cond_broadcast` (`fibre.h`) use it: a `BlockingQueue` whose callers see to it that no two of
    them are in it at a time. `wait` is called with the mutex, releases it and returns without it; the
    `fibre_cond` calls acquire it again. `signal` takes no mutex: its caller has it, or has none and is
    alone in the queue for another reason. Any number of fibres, timers and other users of the mutex;
    each piece under the mutex is one step, and so is each round of the loop of `signal`.

        own, out ──(signal)──▶ signalling ──(unblock)──▶ own, out
         │
        wait ──▶ blocked ──(unblock)──▶ granted ──▶ back true ──▶ own
         │          │ timer                             ▲
         │          ▼                                   │
         │       expired ──▶ cleaning ──▶ back false ───┘
         └───────────(deadline passed)────▶ ▲ -/

namespace Libfibre.Condition
open Transition BlockingQueue

/-- Where a fibre is. -/
inductive Pc where
  | out
  | own                       -- has the mutex
  | signalling (locked all : Bool)   -- in the loop of `signal<all>`, with the mutex or without
  | blocked (timed : Bool)
  | expired                   -- the timer has won: before the mutex is acquired
  | cleaning                  -- has the mutex, before `queue.remove`
  | granted                   -- `unblock` has won
  | back (ok : Bool)          -- `wait` has returned `ok`
  deriving DecidableEq

structure State (F : Type) where
  lock : Option F
  bq : List F
  pc : F → Pc

inductive Action (F : Type) where
  | acquire (f : F)
  | release (f : F)
  | wait (f : F) (args : Args)
  | signal (f : F) (all : Bool)
  | unblock (f : F)
  | timer (f : F)
  | relock (f : F)
  | remove (f : F)
  | run (f : F)
  | leave (f : F)
  deriving DecidableEq

/-- Asleep in `bq` with an open race. -/
def Pc.waits : Pc → Bool
  | .blocked _ => true
  | _ => false

/-- Has a node in `bq`. -/
def Pc.queued : Pc → Bool
  | .blocked _ | .expired | .cleaning => true
  | _ => false

/-- Has the mutex. -/
def Pc.locks : Pc → Bool
  | .own | .cleaning => true
  | .signalling locked _ => locked
  | _ => false

/-- Where a fibre is that is not in a call, with the mutex or without. -/
def Pc.home (locked : Bool) : Pc := if locked then .own else .out

variable {F : Type} [DecidableEq F]

def State.goto (s : State F) (f : F) (p : Pc) : State F :=
  { s with pc := Function.update s.pc f p }

/-- `wait` from its call to `lock.release()`. -/
def wait (s : State F) (f : F) (args : Args) : State F :=
  if args.blocks then
    State.goto { s with lock := none, bq := s.bq ++ [f] } f (.blocked args.timed)
  else State.goto { s with lock := none } f (.back false)

/-- One round of the loop of `signal`: `bq.unblock<true>() && Broadcast`. -/
def signal (s : State F) (f : F) (locked all : Bool) : State F :=
  match unblock (fun g => (s.pc g).waits) s.bq with
  | (some next, q) =>
    (State.goto { s with bq := q } next .granted).goto f
      (if all then .signalling locked all else .home locked)
  | (none, q) => State.goto { s with bq := q } f (.home locked)

def step (s : State F) : Action F → Option (State F)
  | .acquire f =>
    if s.lock = none ∧ s.pc f = .out then some (State.goto { s with lock := some f } f .own) else none
  | .release f =>
    if s.pc f = .own then some (State.goto { s with lock := none } f .out) else none
  | .wait f args => if s.pc f = .own then some (wait s f args) else none
  | .signal f all =>
    match s.pc f with
    | .own => some (s.goto f (.signalling true all))
    | .out => some (s.goto f (.signalling false all))
    | _ => none
  | .unblock f =>
    match s.pc f with
    | .signalling locked all => some (signal s f locked all)
    | _ => none
  | .timer f => if s.pc f = .blocked true then some (s.goto f .expired) else none
  | .relock f =>
    if s.lock = none then
      match s.pc f with
      | .expired => some (State.goto { s with lock := some f } f .cleaning)
      | .back _ => some (State.goto { s with lock := some f } f .own)
      | _ => none
    else none
  | .remove f =>
    if s.pc f = .cleaning then
      some (State.goto { s with lock := none, bq := s.bq.erase f } f (.back false))
    else none
  | .run f => if s.pc f = .granted then some (s.goto f (.back true)) else none
  | .leave f =>
    match s.pc f with
    | .back _ => some (s.goto f .out)
    | _ => none

def State.init : State F := ⟨none, [], fun _ => .out⟩

def system (F : Type) [DecidableEq F] : System (State F) (Action F) := ⟨fun s => s = .init, step⟩

/-! ### The invariant -/

/-- INVARIANT: the queue holds one node for each fibre in `wait` that has not been released, and the mutex
    has the holder that it says. -/
structure Inv (s : State F) : Prop where
  nodup : s.bq.Nodup
  queued : ∀ f, f ∈ s.bq ↔ (s.pc f).queued = true
  lock : ∀ f, (s.pc f).locks = true ↔ s.lock = some f

/-- The fibres asleep with an open race, longest-blocked first. -/
def waiters (s : State F) : List F := s.bq.filter fun f => (s.pc f).waits

/-- What a step does: one fibre moves, `unblock` takes the first of the waiters, or nobody waits. -/
inductive Effect (s s' : State F) : Action F → Prop
  | acquired (f : F) : s.lock = none → s.pc f = .out →
      s' = State.goto { s with lock := some f } f .own → Effect s s' (.acquire f)
  | released (f : F) : s.pc f = .own →
      s' = State.goto { s with lock := none } f .out → Effect s s' (.release f)
  | blocks (f : F) (args : Args) : s.pc f = .own → args.blocks = true →
      s' = State.goto { s with lock := none, bq := s.bq ++ [f] } f (.blocked args.timed) →
      Effect s s' (.wait f args)
  | late (f : F) (args : Args) : s.pc f = .own → args.blocks = false →
      s' = State.goto { s with lock := none } f (.back false) → Effect s s' (.wait f args)
  | signals (f : F) (locked all : Bool) : s.pc f = .home locked →
      s' = s.goto f (.signalling locked all) → Effect s s' (.signal f all)
  | takes (f : F) (locked all : Bool) (g : F) (q : List F) : s.pc f = .signalling locked all →
      unblock (fun g => (s.pc g).waits) s.bq = (some g, q) →
      s' = (State.goto { s with bq := q } g .granted).goto f
        (if all then .signalling locked all else .home locked) → Effect s s' (.unblock f)
  | nobody (f : F) (locked all : Bool) : s.pc f = .signalling locked all →
      (∀ g ∈ s.bq, (s.pc g).waits = false) → s' = s.goto f (.home locked) → Effect s s' (.unblock f)
  | expires (f : F) : s.pc f = .blocked true → s' = s.goto f .expired → Effect s s' (.timer f)
  | cleans (f : F) : s.lock = none → s.pc f = .expired →
      s' = State.goto { s with lock := some f } f .cleaning → Effect s s' (.relock f)
  | regains (f : F) (ok : Bool) : s.lock = none → s.pc f = .back ok →
      s' = State.goto { s with lock := some f } f .own → Effect s s' (.relock f)
  | removes (f : F) : s.pc f = .cleaning →
      s' = State.goto { s with lock := none, bq := s.bq.erase f } f (.back false) →
      Effect s s' (.remove f)
  | runs (f : F) : s.pc f = .granted → s' = s.goto f (.back true) → Effect s s' (.run f)
  | leaves (f : F) (ok : Bool) : s.pc f = .back ok → s' = s.goto f .out → Effect s s' (.leave f)

variable {s s' t : State F} {f g : F} {a : Action F} {p : Pc}

/-- STEP: the effects are all that a step can do. -/
theorem step_cases (hs : step s a = some s') : Effect s s' a := by
  cases a with
  | acquire f =>
    obtain ⟨⟨hl, hpc⟩, hs⟩ := Option.ite_none_right_eq_some.mp hs
    exact .acquired f hl hpc (Option.some.inj hs).symm
  | release f =>
    obtain ⟨hpc, hs⟩ := Option.ite_none_right_eq_some.mp hs
    exact .released f hpc (Option.some.inj hs).symm
  | wait f args =>
    obtain ⟨hpc, hs⟩ := Option.ite_none_right_eq_some.mp hs
    obtain rfl := Option.some.inj hs
    cases hb : args.blocks with
    | true => exact .blocks f args hpc hb (by rw [wait, if_pos hb])
    | false => exact .late f args hpc hb (by rw [wait, hb, if_neg Bool.false_ne_true])
  | signal f all =>
    rw [step] at hs
    split at hs
    · rename_i hpc
      exact .signals f true all hpc (Option.some.inj hs).symm
    · rename_i hpc
      exact .signals f false all hpc (Option.some.inj hs).symm
    · cases hs
  | unblock f =>
    rw [step] at hs
    split at hs
    · rename_i locked all hpc
      obtain rfl := Option.some.inj hs
      rcases hu : unblock (fun g => (s.pc g).waits) s.bq with ⟨next, q⟩
      cases next with
      | some g => exact .takes f locked all g q hpc hu (by rw [signal, hu])
      | none =>
        obtain ⟨rfl, hnone⟩ := unblock_none hu
        exact .nobody f locked all hpc hnone (by rw [signal, hu])
    · cases hs
  | timer f =>
    obtain ⟨hpc, hs⟩ := Option.ite_none_right_eq_some.mp hs
    exact .expires f hpc (Option.some.inj hs).symm
  | relock f =>
    obtain ⟨hl, hs⟩ := Option.ite_none_right_eq_some.mp hs
    split at hs
    · rename_i hpc
      exact .cleans f hl hpc (Option.some.inj hs).symm
    · rename_i ok hpc
      exact .regains f ok hl hpc (Option.some.inj hs).symm
    · cases hs
  | remove f =>
    obtain ⟨hpc, hs⟩ := Option.ite_none_right_eq_some.mp hs
    exact .removes f hpc (Option.some.inj hs).symm
  | run f =>
    obtain ⟨hpc, hs⟩ := Option.ite_none_right_eq_some.mp hs
    exact .runs f hpc (Option.some.inj hs).symm
  | leave f =>
    rw [step] at hs
    split at hs
    · rename_i ok hpc
      exact .leaves f ok hpc (Option.some.inj hs).symm
    · cases hs

omit [DecidableEq F] in
theorem waits_iff : p.waits = true ↔ ∃ timed, p = .blocked timed := by
  cases p <;> simp [Pc.waits]

/-- One fibre moves. -/
theorem Inv.move (h : Inv s) (hpc : s'.pc = Function.update s.pc f p) (hnodup : s'.bq.Nodup)
    (hothers : ∀ g, g ≠ f → (g ∈ s'.bq ↔ g ∈ s.bq)) (hmine : f ∈ s'.bq ↔ p.queued = true)
    (hlock : (∀ u, u ≠ f → (s'.lock = some u ↔ s.lock = some u)) ∧
      (p.locks = true ↔ s'.lock = some f)) : Inv s' := by
  refine ⟨hnodup, ?_, ?_⟩
  · rw [hpc]
    exact (Function.forall_update_iff s.pc fun g q => g ∈ s'.bq ↔ q.queued = true).mpr
      ⟨hmine, fun g hg => (hothers g hg).trans (h.queued g)⟩
  · rw [hpc]
    exact Threads.lock_move h.lock hlock

/-- A fibre moves and leaves the queue as it is. -/
theorem Inv.goto (h : Inv s) (hpc : s'.pc = Function.update s.pc f p) (hbq : s'.bq = s.bq)
    (hqueued : p.queued = (s.pc f).queued)
    (hlock : (∀ u, u ≠ f → (s'.lock = some u ↔ s.lock = some u)) ∧
      (p.locks = true ↔ s'.lock = some f)) : Inv s' :=
  h.move hpc (hbq ▸ h.nodup) (fun g _ => by rw [hbq]) (by rw [hbq, hqueued]; exact h.queued f) hlock

/-- `unblock` releases a fibre. -/
theorem Inv.granted (h : Inv s) {q : List F}
    (hu : unblock (fun g => (s.pc g).waits) s.bq = (some g, q)) :
    (s.pc g).waits = true ∧
      Inv (State.goto { s with bq := q } g .granted) := by
  obtain ⟨-, hwaits, hnodup, hmem⟩ := mem_unblock_some h.nodup hu
  refine ⟨hwaits, h.move rfl hnodup (fun k hk => ?_) (iff_of_false ?_ (by simp [Pc.queued])) ?_⟩
  · exact (hmem k).trans (and_iff_left hk)
  · exact fun hg => ((hmem g).mp hg).2 rfl
  · obtain ⟨timed, hpc⟩ := waits_iff.mp hwaits
    exact Threads.lock_same h.lock rfl (by rw [hpc]; rfl)

/-- STEP: every step keeps the invariant. -/
theorem Inv.step (h : Inv s) (hs : step s a = some s') : Inv s' := by
  cases step_cases hs with
  | acquired f hl hpc hs' =>
    subst hs'
    exact h.goto rfl rfl (by rw [hpc]; rfl) (Threads.lock_taken hl rfl rfl)
  | released f hpc hs' =>
    subst hs'
    exact h.goto rfl rfl (by rw [hpc]; rfl)
      (Threads.lock_released h.lock (by rw [hpc]; rfl) rfl rfl)
  | blocks f args hpc _ hs' =>
    subst hs'
    have hf : f ∉ s.bq := by
      rw [h.queued, hpc]
      exact Bool.false_ne_true
    refine h.move rfl (nodup_pushBack h.nodup hf) (fun g hg => ?_) (iff_of_true ?_ rfl)
      (Threads.lock_released h.lock (by rw [hpc]; rfl) rfl rfl)
    · simp [State.goto, hg]
    · simp [State.goto]
  | late f args hpc _ hs' =>
    subst hs'
    exact h.goto rfl rfl (by rw [hpc]; rfl)
      (Threads.lock_released h.lock (by rw [hpc]; rfl) rfl rfl)
  | signals f locked all hpc hs' =>
    subst hs'
    exact h.goto rfl rfl (by rw [hpc]; cases locked <;> rfl)
      (Threads.lock_same h.lock rfl (by rw [hpc]; cases locked <;> rfl))
  | takes f locked all g q hpc hu hs' =>
    subst hs'
    obtain ⟨hwaits, hinv⟩ := h.granted hu
    have hne : f ≠ g := by
      rintro rfl
      rw [hpc] at hwaits
      cases hwaits
    have hf : (State.goto { s with bq := q } g .granted).pc f = .signalling locked all :=
      (Function.update_of_ne hne ..).trans hpc
    refine hinv.goto rfl rfl ?_ (Threads.lock_same hinv.lock rfl ?_)
    · rw [hf]
      cases all <;> cases locked <;> rfl
    · rw [hf]
      cases all <;> cases locked <;> rfl
  | nobody f locked all hpc _ hs' =>
    subst hs'
    exact h.goto rfl rfl (by rw [hpc]; cases locked <;> rfl)
      (Threads.lock_same h.lock rfl (by rw [hpc]; cases locked <;> rfl))
  | expires f hpc hs' =>
    subst hs'
    exact h.goto rfl rfl (by rw [hpc]; rfl) (Threads.lock_same h.lock rfl (by rw [hpc]; rfl))
  | cleans f hl hpc hs' =>
    subst hs'
    exact h.goto rfl rfl (by rw [hpc]; rfl) (Threads.lock_taken hl rfl rfl)
  | regains f ok hl hpc hs' =>
    subst hs'
    exact h.goto rfl rfl (by rw [hpc]; rfl) (Threads.lock_taken hl rfl rfl)
  | removes f hpc hs' =>
    subst hs'
    exact h.move rfl (h.nodup.erase f) (fun g hg => List.mem_erase_of_ne hg)
      (iff_of_false h.nodup.not_mem_erase Bool.false_ne_true)
      (Threads.lock_released h.lock (by rw [hpc]; rfl) rfl rfl)
  | runs f hpc hs' =>
    subst hs'
    exact h.goto rfl rfl (by rw [hpc]; rfl) (Threads.lock_same h.lock rfl (by rw [hpc]; rfl))
  | leaves f ok hpc hs' =>
    subst hs'
    exact h.goto rfl rfl (by rw [hpc]; rfl) (Threads.lock_same h.lock rfl (by rw [hpc]; rfl))

omit [DecidableEq F] in
theorem inv_init : Inv (State.init : State F) :=
  ⟨List.nodup_nil, fun _ => iff_of_false List.not_mem_nil Bool.false_ne_true,
    fun _ => iff_of_false Bool.false_ne_true fun h => by cases h⟩

theorem inv_of_reach (h : Reach (system F) s) : Inv s :=
  h.inv (fun s h0 => by cases h0; exact inv_init) fun _ _ _ hi hs => hi.step hs

end Libfibre.Condition
