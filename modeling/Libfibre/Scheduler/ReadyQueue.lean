import Libfibre.LockFreeQueues.NemesisCalls

/-! `ReadyQueue` (`BaseProcessor.h`): one `QueueNemesis` for each priority, with `readyLock` around the pops
    of all of them.

        enqueue:     out ─▶ pushing p ─▶ out
        tryDequeue:  out ─▶ probing 0 ─▶ probing 1 ─▶ … ─▶ out
                              └──────────────┴─▶ trying ─▶ out
                                                   ▼
        dequeue:     out ─▶ locking ─▶ calling 0 ─▶ popping 0 ─▶ calling 1 ─▶ … ─▶ releasing f ─▶ out

    The pops are without a lock of the queue's own; here it is one that is always free. A fred has one link
    for all queues and is enqueued only while it is in none of them. -/

namespace Libfibre.ReadyQueue
open Transition LinkedList

/-- `Fred::NumPriority` -/
def NumPriority : ℕ := 3

/-- Where a thread is; `p` is the queue, `f` what `dequeueInternal` has returned. -/
inductive Pc (N : Type) where
  | out
  | pushing (p : ℕ)
  | probing (p : ℕ)
  | trying
  | locking
  | calling (p : ℕ)
  | popping (p : ℕ)
  | releasing (f : Option N)
  deriving DecidableEq

/-- A queue for each priority, the lock, and where each thread is. -/
structure State (N T : Type) where
  queue : ℕ → QueueNemesis.State N T
  readyLock : Option T
  pc : T → Pc N
  result : T → Option N    -- of the latest `dequeue` or `tryDequeue`
  passed : T → List ℕ      -- history: where the latest `dequeueInternal` has popped nothing

/-- A call begins, or goes on by one access. -/
inductive Action (N T : Type) where
  | enqueue (t : T) (f : N) (priority : ℕ)
  | dequeue (t : T)
  | tryDequeue (t : T)
  | next (t : T)

variable {N T : Type} [DecidableEq N] [DecidableEq T]

/-- Thread `t` goes to another place in its call. -/
def State.goto (s : State N T) (t : T) (p : Pc N) : State N T := { s with pc := Function.update s.pc t p }

/-- The queue of priority `p` changes. -/
def State.setQueue (s : State N T) (p : ℕ) (q : QueueNemesis.State N T) : State N T :=
  { s with queue := Function.update s.queue p q }

/-- The call of `t` returns `f`. -/
def State.returns (s : State N T) (t : T) (f : Option N) : State N T :=
  State.goto { s with result := Function.update s.result t f } t .out

/-- `dequeueInternal` begins, with the lock. -/
def State.enter (s : State N T) (t : T) : State N T :=
  State.goto { s with readyLock := some t, passed := Function.update s.passed t [] } t (.calling 0)

/-- The pop of queue `p` has returned `f`. -/
def State.popped (s : State N T) (t : T) (p : ℕ) : Option N → State N T
  | some f => s.goto t (.releasing (some f))
  | none => State.goto { s with passed := Function.update s.passed t (s.passed t ++ [p]) } t
      (if p + 1 < NumPriority then .calling (p + 1) else .releasing none)

/-- The next step of thread `t`. -/
def next (s : State N T) (t : T) : Option (State N T) :=
  match s.pc t with
  | .out => none
  | .pushing p =>
    if (s.queue p).pc t = .out then some (s.goto t .out)
    else (QueueNemesis.next (s.queue p) t).map (s.setQueue p)
  | .probing p =>
    if (s.queue p).tail.isSome then some (s.goto t .trying)
    else if p + 1 < NumPriority then some (s.goto t (.probing (p + 1)))
    else some (s.returns t none)
  | .trying => if s.readyLock = none then some (s.enter t) else some (s.returns t none)
  | .locking => if s.readyLock = none then some (s.enter t) else none
  | .calling p => (QueueNemesis.step (s.queue p) (.pop t)).map fun q => (s.setQueue p q).goto t (.popping p)
  | .popping p =>
    if (s.queue p).pc t = .out then
      match (s.queue p).result t with
      | some (.popped f) => some (s.popped t p f)
      | _ => none
    else (QueueNemesis.next (s.queue p) t).map (s.setQueue p)
  | .releasing f => some (State.returns { s with readyLock := none } t f)

/-- One access of a call. -/
def step (s : State N T) : Action N T → Option (State N T)
  | .enqueue t f p =>
    if s.pc t = .out ∧ p < NumPriority ∧ ∀ q < NumPriority, (s.queue q).owner f = .free then
      (QueueNemesis.step (s.queue p) (.push t f [])).map fun q => (s.setQueue p q).goto t (.pushing p)
    else none
  | .dequeue t => if s.pc t = .out then some (s.goto t .locking) else none
  | .tryDequeue t => if s.pc t = .out then some (s.goto t (.probing 0)) else none
  | .next t => next s t

/-- Three empty queues, with no call under way. -/
def State.init : State N T where
  queue _ := .init
  readyLock := none
  pc _ := .out
  result _ := none
  passed _ := []

/-- Any number of threads enqueue and dequeue. -/
def system (N T : Type) [DecidableEq N] [DecidableEq T] : System (State N T) (Action N T) :=
  ⟨fun s => s = .init, step⟩

/-! ### The invariant -/

/-- In the section of `readyLock`. -/
def Pc.locked : Pc N → Bool
  | .calling _ | .popping _ | .releasing _ => true
  | _ => false

/-- The queue that it is in an operation of. -/
def Pc.within : Pc N → Option ℕ
  | .pushing p | .popping p => some p
  | _ => none

/-- `dequeueInternal` goes through the queues in their order. -/
def Account (passed : List ℕ) (took : ℕ → Option N) : Pc N → Prop
  | .probing p => p < NumPriority
  | .calling p | .popping p => p < NumPriority ∧ passed = List.range p
  | .releasing none => passed = List.range NumPriority
  | .releasing (some f) => ∃ p < NumPriority, passed = List.range p ∧ took p = some f
  | _ => True

/-- What holds of a thread at `a`. -/
structure Mine (s : State N T) (t : T) (a : Pc N) : Prop where
  inside : ∀ p, (s.queue p).pc t ≠ .out → a.within = some p
  pushing : ∀ p, a = .pushing p → ((s.queue p).pc t).pops = false
  popping : ∀ p, a = .popping p → ((s.queue p).pc t).pushes = false ∧
    ((s.queue p).pc t = .out → ∃ r, (s.queue p).result t = some (.popped r) ∧ (s.queue p).took t = r)
  account : Account (s.passed t) (fun p => (s.queue p).took t) a

/-- INVARIANT: each queue is as its own runs have it, and the lock guards the dequeuing. -/
structure Inv (s : State N T) : Prop where
  reach : ∀ p, Reach (QueueNemesis.system N T) (s.queue p)
  mine : ∀ t, Mine s t (s.pc t)
  lock : ∀ t, (s.pc t).locked = true ↔ s.readyLock = some t

section Steps
variable {s s' : State N T} {t u : T} {p : ℕ} {a b : Pc N}

omit [DecidableEq N] [DecidableEq T] in
/-- Nothing has changed for the thread. -/
theorem Mine.congr (h : Mine s t a) (hpassed : s'.passed t = s.passed t)
    (hqueue : ∀ p, (s'.queue p).pc t = (s.queue p).pc t ∧ (s'.queue p).result t = (s.queue p).result t ∧
      (s'.queue p).took t = (s.queue p).took t) : Mine s' t a := by
  have htook : (fun p => (s'.queue p).took t) = fun p => (s.queue p).took t := funext fun p => (hqueue p).2.2
  refine ⟨fun p hp => h.inside p ?_, fun p hp => ?_, fun p hp => ?_, ?_⟩
  · rwa [← (hqueue p).1]
  · rw [(hqueue p).1]
    exact h.pushing p hp
  · rw [(hqueue p).1, (hqueue p).2.1, (hqueue p).2.2]
    exact h.popping p hp
  · rw [hpassed, htook]
    exact h.account

omit [DecidableEq N] [DecidableEq T] in
/-- A thread that is in no operation of a queue. -/
theorem Mine.outside (hout : ∀ p, (s.queue p).pc t = .out) (ha : a.within = none)
    (haccount : Account (s.passed t) (fun p => (s.queue p).took t) a) : Mine s t a where
  inside p hp := absurd (hout p) hp
  pushing p hp := by rw [hp] at ha; cases ha
  popping p hp := by rw [hp] at ha; cases ha
  account := haccount

omit [DecidableEq N] [DecidableEq T] in
theorem Mine.all_out (h : Mine s t a) (ha : ∀ p, a.within = some p → (s.queue p).pc t = .out) (p : ℕ) :
    (s.queue p).pc t = .out := by
  by_contra hne
  exact hne (ha p (h.inside p hne))

/-- One thread moves, in one queue at most. -/
theorem Inv.move (h : Inv s) (hreach : ∀ p, Reach (QueueNemesis.system N T) (s'.queue p))
    (hpc : s'.pc = Function.update s.pc t b) (hmine : Mine s' t b)
    (hothers : ∀ u, u ≠ t → s'.passed u = s.passed u ∧ ∀ p, (s'.queue p).pc u = (s.queue p).pc u ∧
      (s'.queue p).result u = (s.queue p).result u ∧ (s'.queue p).took u = (s.queue p).took u)
    (hlock : (∀ u, u ≠ t → (s'.readyLock = some u ↔ s.readyLock = some u)) ∧
      (b.locked = true ↔ s'.readyLock = some t)) : Inv s' where
  reach := hreach
  mine u := by
    rw [hpc]
    rcases eq_or_ne u t with rfl | hu
    · rwa [Function.update_self]
    · rw [Function.update_of_ne hu]
      exact (h.mine u).congr (hothers u hu).1 (hothers u hu).2
  lock := by
    rw [hpc]
    exact Threads.lock_move h.lock hlock

/-- Between the operations of the queues. -/
theorem Inv.goto (h : Inv s) (hpc : s'.pc = Function.update s.pc t b) (hqueue : s'.queue = s.queue)
    (hpassed : ∀ u, u ≠ t → s'.passed u = s.passed u)
    (hout : ∀ p, (s.pc t).within = some p → (s.queue p).pc t = .out) (hb : b.within = none)
    (haccount : Account (s'.passed t) (fun p => (s.queue p).took t) b)
    (hlock : (∀ u, u ≠ t → (s'.readyLock = some u ↔ s.readyLock = some u)) ∧
      (b.locked = true ↔ s'.readyLock = some t)) : Inv s' := by
  refine h.move ?_ hpc (.outside ?_ hb ?_) (fun u hu => ⟨hpassed u hu, fun p => ?_⟩) hlock
  · rw [hqueue]
    exact h.reach
  · rw [hqueue]
    exact (h.mine t).all_out hout
  · rw [hqueue]
    exact haccount
  · rw [hqueue]
    exact ⟨rfl, rfl, rfl⟩

/-- Queue `p` makes a step of its own, for `t`. -/
theorem Inv.setQueue (h : Inv s) {q : QueueNemesis.State N T} {act : QueueNemesis.Action N T}
    (hstep : QueueNemesis.step (s.queue p) act = some q)
    (hpc : s'.pc = Function.update s.pc t b) (hqueue : s'.queue = Function.update s.queue p q)
    (hpassed : s'.passed = s.passed) (hlock : s'.readyLock = s.readyLock)
    (hlocked : b.locked = (s.pc t).locked)
    (hothers : ∀ u, u ≠ t → q.pc u = (s.queue p).pc u ∧ q.result u = (s.queue p).result u ∧
      q.took u = (s.queue p).took u)
    (hout : ∀ r, r ≠ p → (s.queue r).pc t = .out) (hb : b.within = some p)
    (hpush : b = .pushing p → (q.pc t).pops = false)
    (hpop : b = .popping p → (q.pc t).pushes = false ∧
      (q.pc t = .out → ∃ r, q.result t = some (.popped r) ∧ q.took t = r))
    (haccount : Account (s.passed t) (fun _ => none) b) : Inv s' := by
  have hp : s'.queue p = q := by rw [hqueue, Function.update_self]
  have hne : ∀ r, r ≠ p → s'.queue r = s.queue r := fun r hr => by rw [hqueue, Function.update_of_ne hr]
  have honly : ∀ r, b.within = some r → r = p := fun r hr => Option.some.inj (hr.symm.trans hb)
  refine h.move (fun r => ?_) hpc ⟨fun r hr => ?_, fun r hr => ?_, fun r hr => ?_, ?_⟩
    (fun u hu => ⟨?_, fun r => ?_⟩) ?_
  · rcases eq_or_ne r p with rfl | hr
    · rw [hp]
      exact (h.reach r).step hstep
    · rw [hne r hr]
      exact h.reach r
  · rcases eq_or_ne r p with rfl | hrp
    · exact hb
    · rw [hne r hrp] at hr
      exact absurd (hout r hrp) hr
  · obtain rfl := honly r (by rw [hr]; rfl)
    rw [hp]
    exact hpush hr
  · obtain rfl := honly r (by rw [hr]; rfl)
    rw [hp]
    exact hpop hr
  · rw [hpassed]
    cases b <;> first | exact haccount | cases hb
  · rw [hpassed]
  · rcases eq_or_ne r p with rfl | hr
    · rw [hp]
      exact hothers u hu
    · rw [hne r hr]
      exact ⟨rfl, rfl, rfl⟩
  · rw [hlock, hlocked]
    exact ⟨fun u _ => Iff.rfl, h.lock t⟩

/-- STEP: a step within an operation of queue `p`. -/
theorem Inv.queueNext (h : Inv s) (ha : (s.pc t).within = some p) {q : QueueNemesis.State N T}
    (hs : QueueNemesis.next (s.queue p) t = some q) : Inv (s.setQueue p q) := by
  have hstays := QueueNemesis.stays hs
  have hmine := h.mine t
  obtain ⟨l, k, hI⟩ := QueueNemesis.inv_reach (h.reach p)
  have hnext : QueueNemesis.step (s.queue p) (.next t) = some q := hs
  refine h.setQueue hnext (Function.update_eq_self t s.pc).symm rfl rfl rfl rfl hstays.others ?_ ha
    ?_ ?_ ?_
  · intro r hr
    by_contra hne
    exact hr (Option.some.inj ((hmine.inside r hne).symm.trans ha))
  · intro hpc
    cases hq : ((s.queue p).pc t).pushes with
    | true => exact hstays.pushes hq
    | false =>
      -- out of any call there is no step
      have hpops := hmine.pushing p hpc
      cases hp : (s.queue p).pc t <;> rw [hp] at hq hpops
      case out =>
        rw [QueueNemesis.next, hp] at hs
        cases hs
      all_goals first
        | (cases hq; done)
        | cases hpops
  · intro hpc
    have hpushes := (hmine.popping p hpc).1
    have hpops : ((s.queue p).pc t).pops = true := by
      cases hp : (s.queue p).pc t <;> rw [hp] at hpushes
      case out =>
        rw [QueueNemesis.next, hp] at hs
        cases hs
      all_goals first
        | rfl
        | cases hpushes
    refine ⟨hstays.pops hpops, fun hout => ?_⟩
    obtain ⟨r, hr⟩ := hstays.result hpops hout
    exact ⟨r, hr, (QueueNemesis.returned hI (QueueNemesis.took_reach (h.reach p)) hs hout hr).1⟩
  · have haccount := hmine.account
    cases hp : s.pc t <;> rw [hp] at ha haccount <;> first | exact haccount | cases ha

omit [DecidableEq N] [DecidableEq T] in
theorem out_of_within (ha : a.within = some p) (hp : (s.queue p).pc t = .out) :
    ∀ r, a.within = some r → (s.queue r).pc t = .out := by
  intro r hr
  rwa [← Option.some.inj (ha.symm.trans hr)]

omit [DecidableEq N] [DecidableEq T] in
theorem none_within (ha : a.within = none) : ∀ r, a.within = some r → (s.queue r).pc t = .out := by
  intro r hr
  rw [ha] at hr
  cases hr

/-- STEP: `dequeueInternal` begins. -/
theorem Inv.enter (h : Inv s) (hfree : s.readyLock = none) (hout : (s.pc t).within = none) :
    Inv (s.enter t) :=
  h.goto rfl rfl (fun _ hu => Function.update_of_ne hu ..) (none_within hout) rfl
    ⟨by decide, Function.update_self ..⟩ (Threads.lock_taken hfree rfl rfl)

/-- STEP: the pop of queue `p` has returned. -/
theorem Inv.popped (h : Inv s) (hpc : s.pc t = .popping p) (hout : (s.queue p).pc t = .out) {f : Option N}
    (hf : (s.queue p).result t = some (.popped f)) : Inv (s.popped t p f) := by
  have hmine := h.mine t
  rw [hpc] at hmine
  obtain ⟨hp, hpassed⟩ := hmine.account
  obtain ⟨r, hr, htook⟩ := (hmine.popping p rfl).2 hout
  rw [hr, Option.some.injEq, QueueNemesis.Result.popped.injEq] at hf
  rw [hf] at htook
  have hlocked : (s.pc t).locked = true := by rw [hpc]; rfl
  have hwithin := out_of_within (a := s.pc t) (by rw [hpc]; rfl) hout
  cases f with
  | some f =>
    refine h.goto rfl rfl (fun _ _ => rfl) hwithin rfl ⟨p, hp, hpassed, htook⟩
      (Threads.lock_same h.lock rfl hlocked.symm)
  | none =>
    rw [State.popped]
    have hrange : Function.update s.passed t (s.passed t ++ [p]) t = List.range (p + 1) := by
      rw [Function.update_self, hpassed, List.range_succ]
    split
    · refine h.goto rfl rfl (fun _ hu => Function.update_of_ne hu ..) hwithin rfl ⟨‹_›, hrange⟩
        (Threads.lock_same h.lock rfl hlocked.symm)
    · have hlast : p + 1 = NumPriority := by omega
      refine h.goto rfl rfl (fun _ hu => Function.update_of_ne hu ..) hwithin rfl ?_
        (Threads.lock_same h.lock rfl hlocked.symm)
      rw [hlast] at hrange
      exact hrange

/-- STEP: a thread that is in no queue, with its lock as it is. -/
theorem Inv.walk (h : Inv s) (hpc : (s.pc t).within = none) (hb : b.within = none)
    (hlocked : b.locked = (s.pc t).locked) (hresult : s'.queue = s.queue ∧ s'.passed = s.passed ∧
      s'.readyLock = s.readyLock ∧ s'.pc = Function.update s.pc t b)
    (haccount : Account (s.passed t) (fun p => (s.queue p).took t) b) : Inv s' := by
  obtain ⟨hqueue, hpassed, hlock, hpc'⟩ := hresult
  refine h.goto hpc' hqueue (fun u _ => congrFun hpassed u) (none_within hpc) hb ?_
    (Threads.lock_same h.lock hlock hlocked)
  rw [hpassed]
  exact haccount

/-- STEP: every step of a thread keeps the invariant. -/
theorem Inv.next (h : Inv s) (hs : ReadyQueue.next s t = some s') : Inv s' := by
  unfold ReadyQueue.next at hs
  split at hs
  case h_1 => cases hs
  case h_2 p hpc =>
    split at hs
    · obtain rfl := Option.some.inj hs
      exact h.goto rfl rfl (fun _ _ => rfl) (out_of_within (by rw [hpc]; rfl) ‹_›) rfl trivial
        (Threads.lock_same h.lock rfl (by rw [hpc]; rfl))
    · obtain ⟨q, hq, rfl⟩ := Option.map_eq_some_iff.mp hs
      exact h.queueNext (by rw [hpc]; rfl) hq
  case h_3 p hpc =>
    have hwithin : (s.pc t).within = none := by rw [hpc]; rfl
    have hlocked : (s.pc t).locked = false := by rw [hpc]; rfl
    split at hs
    · obtain rfl := Option.some.inj hs
      exact h.walk (b := .trying) hwithin rfl hlocked.symm ⟨rfl, rfl, rfl, rfl⟩ trivial
    · split at hs
      · rename_i hp
        obtain rfl := Option.some.inj hs
        exact h.walk (b := .probing (p + 1)) hwithin rfl hlocked.symm ⟨rfl, rfl, rfl, rfl⟩ hp
      · obtain rfl := Option.some.inj hs
        exact h.walk (b := .out) hwithin rfl hlocked.symm ⟨rfl, rfl, rfl, rfl⟩ trivial
  case h_4 hpc =>
    have hwithin : (s.pc t).within = none := by rw [hpc]; rfl
    split at hs
    · obtain rfl := Option.some.inj hs
      exact h.enter ‹_› hwithin
    · obtain rfl := Option.some.inj hs
      exact h.walk hwithin rfl (by rw [hpc]; rfl) ⟨rfl, rfl, rfl, rfl⟩ trivial
  case h_5 hpc =>
    obtain ⟨hfree, hs⟩ := Option.ite_none_right_eq_some.mp hs
    obtain rfl := Option.some.inj hs
    exact h.enter hfree (by rw [hpc]; rfl)
  case h_6 p hpc =>
    obtain ⟨q, hq, rfl⟩ := Option.map_eq_some_iff.mp hs
    have hout := (h.mine t).all_out (none_within (by rw [hpc]; rfl))
    have haccount := (h.mine t).account
    rw [hpc] at haccount
    have hstep := hq
    obtain ⟨-, hq⟩ := Option.ite_none_right_eq_some.mp hq
    obtain rfl := Option.some.inj hq
    have hat : ((s.queue p).goto t .lock).pc t = .lock := Function.update_self ..
    refine h.setQueue hstep rfl rfl rfl rfl (by rw [hpc]; rfl)
      (fun u hu => ⟨Function.update_of_ne hu .., rfl, rfl⟩) (fun r _ => hout r) rfl nofun
      (fun _ => ?_) haccount
    rw [hat]
    exact ⟨rfl, nofun⟩
  case h_7 p hpc =>
    split at hs
    · rename_i hout
      split at hs
      · rename_i f hf
        obtain rfl := Option.some.inj hs
        exact h.popped hpc hout hf
      · cases hs
    · obtain ⟨q, hq, rfl⟩ := Option.map_eq_some_iff.mp hs
      exact h.queueNext (by rw [hpc]; rfl) hq
  case h_8 f hpc =>
    obtain rfl := Option.some.inj hs
    have hlocked : (s.pc t).locked = true := by rw [hpc]; rfl
    exact h.goto rfl rfl (fun _ _ => rfl) (none_within (by rw [hpc]; rfl)) rfl trivial
      (Threads.lock_released h.lock hlocked rfl rfl)

/-- STEP: every step keeps the invariant. -/
theorem Inv.step (h : Inv s) {act : Action N T} (hs : ReadyQueue.step s act = some s') : Inv s' := by
  cases act with
  | enqueue t f p =>
    obtain ⟨⟨hpc, hp, -⟩, hs⟩ := Option.ite_none_right_eq_some.mp hs
    obtain ⟨q, hq, rfl⟩ := Option.map_eq_some_iff.mp hs
    have hout := (h.mine t).all_out (none_within (by rw [hpc]; rfl))
    have hstep := hq
    obtain ⟨-, hq⟩ := Option.ite_none_right_eq_some.mp hq
    obtain rfl := Option.some.inj hq
    refine h.setQueue hstep rfl rfl rfl rfl (by rw [hpc]; rfl)
      (fun u hu => ⟨Function.update_of_ne hu .., rfl, rfl⟩) (fun r _ => hout r) rfl
      (fun _ => ?_) nofun trivial
    have hat : ∀ q : QueueNemesis.State N T, (q.goto t (.swing f [])).pc t = .swing f [] := fun _ =>
      Function.update_self ..
    rw [hat]
    rfl
  | dequeue t =>
    obtain ⟨hpc, hs⟩ := Option.ite_none_right_eq_some.mp hs
    obtain rfl := Option.some.inj hs
    exact h.walk (by rw [hpc]; rfl) rfl (by rw [hpc]; rfl) ⟨rfl, rfl, rfl, rfl⟩ trivial
  | tryDequeue t =>
    obtain ⟨hpc, hs⟩ := Option.ite_none_right_eq_some.mp hs
    obtain rfl := Option.some.inj hs
    exact h.walk (b := .probing 0) (by rw [hpc]; rfl) rfl (by rw [hpc]; rfl) ⟨rfl, rfl, rfl, rfl⟩
      (Nat.succ_pos 2)
  | next t => exact h.next hs

theorem inv_init : Inv (State.init : State N T) where
  reach _ := .start rfl
  mine _ := .outside (fun _ => rfl) rfl trivial
  lock _ := iff_of_false Bool.false_ne_true nofun

theorem inv_reach (h : Reach (system N T) s) : Inv s :=
  h.inv (fun s h0 => by cases h0; exact inv_init) fun _ _ _ hi hs => hi.step hs

/-! ### What is dequeued -/

/-- Only the holder of `readyLock` pops, in one queue. -/
theorem Inv.alone (h : Inv s) (ht : ((s.queue p).pc t).pops = true)
    (hu : ((s.queue p).pc u).pops = true) : u = t := by
  have hlocked : ∀ v, ((s.queue p).pc v).pops = true → (s.pc v).locked = true := by
    intro v hv
    have hwithin := (h.mine v).inside p (by
      intro hout
      rw [hout] at hv
      cases hv)
    cases hpc : s.pc v <;> rw [hpc] at hwithin <;> first | rfl | cases hwithin
    rw [(h.mine v).pushing p hpc] at hv
    cases hv
  exact Threads.locked_eq h.lock (hlocked t ht) (hlocked u hu)

/-- What `dequeue` and `tryDequeue` may rely on. -/
structure Serves (s : State N T) : Prop where
  /-- the freds of one priority are dequeued in the order of their enqueueing, each once -/
  fifo : ∀ p, (s.queue p).popped <+: (s.queue p).pushed
  exclusive : ∀ t u, (s.pc t).locked = true → (s.pc u).locked = true → t = u
  /-- a fred comes from the first queue that has given one -/
  found : ∀ t f, s.pc t = .releasing (some f) →
    ∃ p < NumPriority, s.passed t = List.range p ∧ (s.queue p).took t = some f
  /-- and null from none of them -/
  missed : ∀ t, s.pc t = .releasing none → s.passed t = List.range NumPriority
  /-- a queue is passed over only while it is empty, or the first in it is being enqueued -/
  passes : ∀ t p, (s.queue p).pc t = .load → (s.queue p).head = none →
    (s.queue p).pushed = (s.queue p).popped ∨
      ∃ u f rest, u ≠ t ∧ s.pc u = .pushing p ∧ (s.queue p).pc u = .link none f ∧
        (s.queue p).pushed = (s.queue p).popped ++ f :: rest
  probes : ∀ t p, s.pc t = .probing p → (s.queue p).tail = none → (s.queue p).pushed = (s.queue p).popped
  /-- a pop that spins waits for one that is enqueueing -/
  waits : ∀ t p e, (s.queue p).pc t = .wait e → (s.queue p).next e = none →
    ∃ u f, s.pc u = .pushing p ∧ (s.queue p).pc u = .link (some e) f
  /-- the queue's own lock keeps nobody waiting -/
  free : ∀ t p, (s.queue p).pc t = .lock → (s.queue p).lock = none

/-- MAIN: whatever the order of the steps of any number of threads that enqueue and dequeue. -/
theorem ready_queue (h : Reach (system N T) s) : Serves s := by
  have hinv := inv_reach h
  have hpushing : ∀ {u p}, ((s.queue p).pc u).pushes = true → s.pc u = .pushing p := by
    intro u p hu
    have hwithin := (hinv.mine u).inside p (by
      intro hout
      rw [hout] at hu
      cases hu)
    cases hpc : s.pc u <;> rw [hpc] at hwithin <;> cases hwithin
    case pushing => rfl
    case popping =>
      rw [((hinv.mine u).popping p hpc).1] at hu
      cases hu
  refine ⟨fun p => (QueueNemesis.nemesis_fifo (hinv.reach p)).1,
    fun t u ht hu => Threads.locked_eq hinv.lock hu ht, fun t f hpc => ?_, fun t hpc => ?_,
      fun t p hpc hhead => ?_,
    fun t p _ htail => ?_, fun t p e hpc hnext => ?_, fun t p hpc => ?_⟩
  · have haccount := (hinv.mine t).account
    rw [hpc] at haccount
    exact haccount
  · have haccount := (hinv.mine t).account
    rw [hpc] at haccount
    exact haccount
  · obtain ⟨q, l, hI⟩ := QueueNemesis.inv_reach (hinv.reach p)
    have ht : ((s.queue p).pc t).pops = true := by rw [hpc]; rfl
    refine (hI.null hpc hhead fun u hu => hinv.alone ht hu).imp_right ?_
    rintro ⟨u, f, rest, hut, hu, hpushed⟩
    exact ⟨u, f, rest, hut, hpushing (by rw [hu]; rfl), hu, hpushed⟩
  · obtain ⟨q, l, hI⟩ := QueueNemesis.inv_reach (hinv.reach p)
    exact hI.tail_null htail
  · obtain ⟨q, l, hI⟩ := QueueNemesis.inv_reach (hinv.reach p)
    obtain ⟨u, f, hu⟩ := hI.waits hpc hnext
    exact ⟨u, f, hpushing (by rw [hu]; rfl), hu⟩
  · obtain ⟨q, l, hI⟩ := QueueNemesis.inv_reach (hinv.reach p)
    by_contra hne
    obtain ⟨u, hu⟩ := Option.ne_none_iff_exists'.mp hne
    have hlocked := (hI.lock u).mpr hu
    have hpops : ((s.queue p).pc u).pops = true := by
      cases hp : (s.queue p).pc u <;> rw [hp] at hlocked <;> first | rfl | cases hlocked
    obtain rfl := hinv.alone (t := t) (by rw [hpc]; rfl) hpops
    rw [hpc] at hlocked
    cases hlocked

end Steps

/-- Thread 0 is in the midst of enqueueing `1` when thread 1 has enqueued `2` behind it: thread 2 passes the
    queue over and dequeues `3`, of the lowest priority. -/
theorem ready_queue_passed : ∃ s : State ℕ (Fin 3), Reach (system ℕ (Fin 3)) s ∧
    (s.pc 2 = .releasing (some 3) ∧ (s.queue 1).pushed = [1, 2] ∧ s.pc 1 = .out) ∧ Serves s := by
  obtain ⟨s, hs, htest⟩ := reach_of_exec (system ℕ (Fin 3)) State.init
    ([.enqueue 0 3 2, .next 0, .next 0, .next 0, .enqueue 0 1 1, .next 0, .enqueue 1 2 1, .next 1,
      .next 1, .next 1, .dequeue 2] ++ List.replicate 19 (.next 2))
    (fun s => decide (s.pc 2 = .releasing (some 3) ∧ (s.queue 1).pushed = [1, 2] ∧ s.pc 1 = .out))
    rfl (by decide)
  exact ⟨s, hs, of_decide_eq_true htest, ready_queue hs⟩

end Libfibre.ReadyQueue
