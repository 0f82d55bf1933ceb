import Libfibre.TimerQueue.Invariant

/-! `TimerQueue`, the one kernel timer of an event scope (`Poller.h`) and the master poller that serves
    both (`Poller.cc`). The sections of `enqueue`, `erase` and `checkExpiry` under the lock are one
    step each, and so is each step of `prePoll`.

        tryblock ──▶ read ──▶ sample ──▶ expire now
           ▲ │         │ EAGAIN             │
           │ └──────┐  ▼                    │
         notify     doPoll ◀────────────────┘
           ▲           │
           └───────────┘

    An `enqueue` that re-arms the timer clears an expiry the poller is about to read; an `erase` leaves
    it armed for a deadline that is gone. Deadlines come after the epoch: time 0 disarms a timer. -/

namespace Libfibre.TimerQueue.Deadlines
open Transition

/-! ### The code -/

/-- `timerFD`: what it is armed for, and whether it has fired and has not been read since. -/
structure Timer where
  armed : Option ℕ
  readable : Bool

/-- `setTimer`: a time in the past fires at once. -/
def setTimer (clock timeout : ℕ) : Timer :=
  if timeout = 0 then ⟨none, false⟩
  else if timeout ≤ clock then ⟨none, true⟩
  else ⟨some timeout, false⟩

/-- The node of a call, with the word `resumeInfo` of its fibre. -/
structure Node where
  resumeInfo : Option Winner
  expired : Bool
  /-- How often `checkExpiry` has resumed the fibre. -/
  resumes : ℕ

/-- `checkExpiry` at a node that is due. -/
def Node.expire (node : Node) : Node :=
  if node.resumeInfo = none then
    { node with resumeInfo := some .timer, resumes := node.resumes + 1 }
  else { node with expired := true }

/-- Where a call of `blockTimeout` is. -/
inductive Pc where
  | idle
  | asleep
  | erasing      -- the node was not expired: before the section of `erase`
  | done
  deriving DecidableEq

/-- Where the master poller is. -/
inductive Poller where
  | tryblock
  | read
  | sample
  | expire (now : ℕ)
  | doPoll
  | notify       -- the events include one of `timerFD`
  deriving DecidableEq

/-- The clock, the queue of deadlines, the timer, its poller, and the waiters. -/
structure State (C : Type) where
  clock : ℕ
  queue : List (ℕ × C)
  timer : Timer
  /-- The binary semaphore `sync[true]` of `timerFD`. -/
  sync : Bool
  poller : Poller
  node : C → Node
  pc : C → Pc

/-- A waiter, the clock, the timer or the poller takes a step. -/
inductive Action (C : Type) where
  | enqueue (n : C) (absTimeout : ℕ)
  | raceResume (n : C)       -- by anyone but the timer
  | look (n : C)             -- resumed: the winner, then `expired` without the lock
  | erase (n : C)
  | clock (now : ℕ)
  | fire
  | doPoll (timer : Bool)    -- `timer`: the events include one of `timerFD`
  | poller

variable {C : Type} [DecidableEq C]

/-- Waiter `n` goes to another place. -/
def State.goto (s : State C) (n : C) (p : Pc) : State C :=
  { s with pc := Function.update s.pc n p }

/-- The node of `n` changes. -/
def State.setNode (s : State C) (n : C) (node : Node) : State C :=
  { s with node := Function.update s.node n node }

/-- The section of `enqueue`. -/
def enqueue (s : State C) (n : C) (absTimeout : ℕ) : State C :=
  State.goto { s with
    queue := insert absTimeout n s.queue
    timer := if (insert absTimeout n s.queue).head? = some (absTimeout, n) then
      setTimer s.clock absTimeout else s.timer } n .asleep

/-- The section of `erase`. -/
def erase (s : State C) (n : C) : State C :=
  State.goto { s with queue := if (s.node n).expired then s.queue else eraseEntry n s.queue } n .done

/-- What a resumed call does before it takes the lock, if it takes it. -/
def look (s : State C) (n : C) : State C :=
  if (s.node n).resumeInfo = some .timer ∨ (s.node n).expired then s.goto n .done
  else s.goto n .erasing

/-- The section of `checkExpiry`: its loop over the queue. -/
def checkExpiry (now : ℕ) : List (ℕ × C) → State C → State C
  | [], s => { s with queue := [] }
  | (deadline, n) :: queue, s =>
    if now < deadline then
      { s with queue := (deadline, n) :: queue, timer := setTimer s.clock deadline }
    else checkExpiry now queue (s.setNode n (s.node n).expire)

/-- The next step of the poller outside `doPoll`. -/
def poller (s : State C) : Option (State C) :=
  match s.poller with
  | .tryblock =>
    some (if s.sync then { s with sync := false, poller := .read } else { s with poller := .doPoll })
  | .read =>
    some (if s.timer.readable then
        { s with timer := { s.timer with readable := false }, poller := .sample }
      else { s with poller := .doPoll })
  | .sample => some { s with poller := .expire s.clock }
  | .expire now => some { checkExpiry now s.queue s with poller := .doPoll }
  | .notify => some { s with sync := true, poller := .tryblock }
  | .doPoll => none

/-- One step. -/
def step (s : State C) : Action C → Option (State C)
  | .enqueue n absTimeout =>
    if s.pc n = .idle ∧ 0 < absTimeout then some (enqueue s n absTimeout) else none
  | .raceResume n =>
    if (s.node n).resumeInfo = none then
      some (s.setNode n { s.node n with resumeInfo := some .queue })
    else none
  | .look n =>
    if s.pc n = .asleep ∧ (s.node n).resumeInfo ≠ none then some (look s n) else none
  | .erase n => if s.pc n = .erasing then some (erase s n) else none
  | .clock now => some { s with clock := now }
  | .fire =>
    match s.timer.armed with
    | some timeout => if timeout ≤ s.clock then some { s with timer := ⟨none, true⟩ } else none
    | none => none
  | .doPoll timer =>
    if s.poller = .doPoll ∧ (timer = true → s.timer.readable = true) then
      some { s with poller := if timer then .notify else .tryblock }
    else none
  | .poller => poller s

/-- Nobody waits, and the timer is not set. -/
def start (now : ℕ) : State C :=
  ⟨now, [], ⟨none, false⟩, false, .tryblock, fun _ => ⟨none, false, 0⟩, fun _ => .idle⟩

/-- Any number of waiters, and time that passes. -/
def system (C : Type) [DecidableEq C] : System (State C) (Action C) where
  init s := ∃ now, s = start now
  step := step

/-! ### The queue -/

/-- INVARIANT: the queue is in the order of the deadlines. -/
def Sorted (queue : List (ℕ × C)) : Prop := queue.Pairwise fun e e' => e.1 ≤ e'.1

omit [DecidableEq C] in
theorem mem_insert_iff (deadline : ℕ) (n : C) (e : ℕ × C) (queue : List (ℕ × C)) :
    e ∈ insert deadline n queue ↔ e = (deadline, n) ∨ e ∈ queue := by
  induction queue with
  | nil => simp [insert]
  | cons e' queue ih =>
    rw [insert]
    split_ifs
    · rw [List.mem_cons, ih, List.mem_cons]; tauto
    · rw [List.mem_cons]

omit [DecidableEq C] in
theorem Sorted.insert {queue : List (ℕ × C)} (h : Sorted queue) (deadline : ℕ) (n : C) :
    Sorted (insert deadline n queue) := by
  induction queue with
  | nil => exact List.pairwise_singleton _ _
  | cons e queue ih =>
    obtain ⟨hle, hrest⟩ := List.pairwise_cons.mp h
    rw [TimerQueue.insert]
    split_ifs with hd
    · refine List.pairwise_cons.mpr ⟨fun e' he' => ?_, ih hrest⟩
      rcases (mem_insert_iff deadline n e' queue).mp he' with rfl | hold
      · exact hd
      · exact hle e' hold
    · refine List.pairwise_cons.mpr ⟨fun e' he' => ?_, h⟩
      rcases List.mem_cons.mp he' with rfl | hold
      · exact Nat.le_of_not_le hd
      · exact Nat.le_trans (Nat.le_of_not_le hd) (hle e' hold)

omit [DecidableEq C] in
/-- A new entry is the first one, or the first one stays and is not later. -/
theorem head_insert {queue : List (ℕ × C)} (deadline : ℕ) {n : C}
    (hn : n ∉ queue.map Prod.snd) :
    (insert deadline n queue).head? = some (deadline, n) ∨
    ∃ e ∈ queue, e.1 ≤ deadline ∧ (insert deadline n queue).head? ≠ some (deadline, n) := by
  cases queue with
  | nil => exact .inl rfl
  | cons e queue =>
    rw [TimerQueue.insert]
    split_ifs with hd
    · refine .inr ⟨e, List.mem_cons_self .., hd, ?_⟩
      rintro he
      rw [List.head?_cons, Option.some.injEq] at he
      exact hn (List.mem_map.mpr ⟨e, List.mem_cons_self .., by rw [he]⟩)
    · exact .inl rfl

omit [DecidableEq C] in
theorem Sorted.head_le {queue : List (ℕ × C)} (h : Sorted queue) {e e' : ℕ × C}
    (hhead : queue.head? = some e) (he' : e' ∈ queue) : e.1 ≤ e'.1 := by
  cases queue with
  | nil => cases hhead
  | cons e₀ queue =>
    rw [List.head?_cons, Option.some.injEq] at hhead
    subst hhead
    rcases List.mem_cons.mp he' with rfl | hrest
    · exact Nat.le_refl _
    · exact (List.pairwise_cons.mp h).1 e' hrest

/-! ### One `checkExpiry` -/

/-- The entries that are due at `now`. -/
def due (now : ℕ) (queue : List (ℕ × C)) : List (ℕ × C) := queue.filter fun e => e.1 ≤ now

/-- The entries that are not. -/
def later (now : ℕ) (queue : List (ℕ × C)) : List (ℕ × C) := queue.filter fun e => now < e.1

/-- A timer that is armed for, or has been fired by, time `t` at the latest. -/
def Timer.covers (timer : Timer) (t : ℕ) : Prop :=
  (∃ timeout, timer.armed = some timeout ∧ timeout ≤ t) ∨ timer.readable = true

theorem covers_setTimer {clock timeout t : ℕ} (h0 : 0 < timeout) (ht : timeout ≤ t) :
    (setTimer clock timeout).covers t := by
  rw [setTimer, if_neg (Nat.ne_of_gt h0)]
  split_ifs
  · exact .inr rfl
  · exact .inl ⟨timeout, rfl, ht⟩

/-- What a `checkExpiry` that goes by `now` does. -/
structure Expires (now : ℕ) (queue : List (ℕ × C)) (s t : State C) : Prop where
  queue_eq : t.queue = later now queue
  timer : ∀ e ∈ t.queue, t.timer.covers e.1
  node : ∀ n, t.node n =
    if n ∈ (due now queue).map Prod.snd then (s.node n).expire else s.node n
  pc : t.pc = s.pc

omit [DecidableEq C] in
theorem later_eq_self {now : ℕ} {e : ℕ × C} {queue : List (ℕ × C)} (h : Sorted (e :: queue))
    (hnow : now < e.1) : later now (e :: queue) = e :: queue ∧ due now (e :: queue) = [] := by
  have hall : ∀ e' ∈ e :: queue, now < e'.1 := by
    intro e' he'
    exact Nat.lt_of_lt_of_le hnow (h.head_le rfl he')
  refine ⟨List.filter_eq_self.mpr fun e' he' => decide_eq_true (hall e' he'), ?_⟩
  exact List.filter_eq_nil_iff.mpr fun e' he' => by
    rw [decide_eq_true_eq]
    exact Nat.not_le_of_lt (hall e' he')

/-- RUN of the loop: it stops at the first entry that is not due. -/
theorem checkExpiry_expires (now : ℕ) (queue : List (ℕ × C)) (s : State C) (hsorted : Sorted queue)
    (hnodup : (queue.map Prod.snd).Nodup) (hpos : ∀ e ∈ queue, 0 < e.1) :
    Expires now queue s (checkExpiry now queue s) := by
  induction queue generalizing s with
  | nil => exact ⟨rfl, fun _ he => absurd he List.not_mem_nil, fun _ => rfl, rfl⟩
  | cons e queue ih =>
    obtain ⟨deadline, n⟩ := e
    rw [checkExpiry]
    split_ifs with hnow
    · obtain ⟨hlater, hdue⟩ := later_eq_self hsorted hnow
      refine ⟨hlater.symm, fun e he => ?_, fun m => ?_, rfl⟩
      · exact covers_setTimer (hpos _ (List.mem_cons_self ..)) (hsorted.head_le rfl he)
      · rw [hdue, List.map_nil, if_neg List.not_mem_nil]
    · obtain ⟨hn, hrest⟩ := List.nodup_cons.mp hnodup
      have hle : deadline ≤ now := Nat.le_of_not_lt hnow
      have h := ih (s.setNode n (s.node n).expire) (List.pairwise_cons.mp hsorted).2 hrest
        fun e he => hpos e (List.mem_cons_of_mem _ he)
      have hdue : due now ((deadline, n) :: queue) = (deadline, n) :: due now queue :=
        List.filter_cons_of_pos (decide_eq_true hle)
      have hlater : later now ((deadline, n) :: queue) = later now queue :=
        List.filter_cons_of_neg (by rw [decide_eq_true_eq]; exact hnow)
      have hnot : n ∉ (due now queue).map Prod.snd := fun hmem =>
        hn (((List.filter_sublist).map Prod.snd).subset hmem)
      refine ⟨h.queue_eq.trans hlater.symm, h.timer, fun m => ?_, h.pc⟩
      have hcalls : m ∈ (due now ((deadline, n) :: queue)).map Prod.snd ↔
          m = n ∨ m ∈ (due now queue).map Prod.snd := by
        rw [hdue, List.map_cons, List.mem_cons]
      rw [h.node m]
      rcases eq_or_ne m n with rfl | hne
      · rw [if_neg hnot, if_pos (hcalls.mpr (.inl rfl))]
        exact Function.update_self ..
      · have hm : (s.setNode n (s.node n).expire).node m = s.node m :=
          Function.update_of_ne hne ..
        rw [hm]
        by_cases hmem : m ∈ (due now queue).map Prod.snd
        · rw [if_pos hmem, if_pos (hcalls.mpr (.inr hmem))]
        · rw [if_neg hmem, if_neg fun h => hmem ((hcalls.mp h).resolve_left hne)]

/-! ### The calls -/

/-- INVARIANT of a call: it is in the queue from its `enqueue` until the timer or its own `erase` takes
    it out; the timer resumes it at most once, and only if it has won the race. -/
structure NodeOk (p : Pc) (node : Node) (queued : Prop) : Prop where
  queued : queued ↔ (p = .asleep ∨ p = .erasing) ∧ node.resumeInfo ≠ some .timer ∧
    node.expired = false
  resumes : node.resumes = if node.resumeInfo = some .timer then 1 else 0
  expired : node.expired = true → node.resumeInfo = some .queue
  idle : p = .idle → node.resumeInfo ≠ some .timer ∧ node.expired = false
  erasing : p = .erasing → node.resumeInfo = some .queue

/-- A node that is due is out of the queue, its call resumed or marked expired. -/
theorem NodeOk.expire {p : Pc} {node : Node} {queued : Prop} (h : NodeOk p node queued)
    (hq : queued) : NodeOk p node.expire False := by
  obtain ⟨hp, hrace, hexp⟩ := h.queued.mp hq
  have hidle : p ≠ .idle := by
    rintro rfl
    rcases hp with hp | hp <;> cases hp
  have hresumes := h.resumes
  rw [if_neg hrace] at hresumes
  rw [Node.expire]
  split
  case isTrue hnone =>
    refine ⟨iff_of_false not_false fun hf => hf.2.1 rfl, ?_, fun he => ?_, fun hi => absurd hi hidle,
      fun he => ?_⟩
    · rw [if_pos rfl, hresumes]
    · rw [hexp] at he
      cases he
    · rw [h.erasing he] at hnone
      cases hnone
  case isFalse hsome =>
    have hqueue : node.resumeInfo = some .queue := by
      cases hw : node.resumeInfo with
      | none => exact absurd hw hsome
      | some w =>
        cases w with
        | queue => rfl
        | timer => exact absurd hw hrace
    refine ⟨iff_of_false not_false fun hf => (nomatch hf.2.2), ?_, fun _ => hqueue,
      fun hi => absurd hi hidle, fun _ => hqueue⟩
    rw [if_neg hrace]
    exact hresumes

theorem NodeOk.congr {p : Pc} {node : Node} {queued queued' : Prop} (h : NodeOk p node queued)
    (heq : queued' ↔ queued) : NodeOk p node queued' :=
  ⟨heq.trans h.queued, h.resumes, h.expired, h.idle, h.erasing⟩

/-- The timer is armed early enough or has fired and has not been read, or the poller is between its
    read and its `checkExpiry`. -/
def Poller.processing : Poller → Bool
  | .sample | .expire _ => true
  | _ => false

/-- INVARIANT: all that holds between two steps. -/
structure Inv (s : State C) : Prop where
  sorted : Sorted s.queue
  nodup : (s.queue.map Prod.snd).Nodup
  pos : ∀ e ∈ s.queue, 0 < e.1
  node : ∀ n, NodeOk (s.pc n) (s.node n) (n ∈ s.queue.map Prod.snd)
  covered : (∀ e ∈ s.queue, s.timer.covers e.1) ∨ s.poller.processing = true

omit [DecidableEq C] in
/-- A step that touches neither the queue nor the calls. -/
theorem Inv.of_calls {s t : State C} (hi : Inv s) (hq : t.queue = s.queue) (hnode : t.node = s.node)
    (hpc : t.pc = s.pc)
    (hc : (∀ e ∈ s.queue, t.timer.covers e.1) ∨ t.poller.processing = true) : Inv t := by
  refine ⟨hq ▸ hi.sorted, hq ▸ hi.nodup, hq ▸ hi.pos, fun n => ?_, hq ▸ hc⟩
  rw [hq, hnode, hpc]
  exact hi.node n

omit [DecidableEq C] in
/-- A step of call `n` alone that leaves the queue, the timer and the poller alone. -/
theorem Inv.of_call {s t : State C} (hi : Inv s) (n : C) (hq : t.queue = s.queue)
    (htimer : t.timer = s.timer) (hpoller : t.poller = s.poller)
    (hother : ∀ m, m ≠ n → t.node m = s.node m ∧ t.pc m = s.pc m)
    (hn : NodeOk (t.pc n) (t.node n) (n ∈ s.queue.map Prod.snd)) : Inv t := by
  refine ⟨hq ▸ hi.sorted, hq ▸ hi.nodup, hq ▸ hi.pos, fun m => ?_, ?_⟩
  · rw [hq]
    rcases eq_or_ne m n with rfl | hne
    · exact hn
    · rw [(hother m hne).1, (hother m hne).2]
      exact hi.node m
  · rw [hq, htimer, hpoller]
    exact hi.covered

theorem Inv.goto {s : State C} (hi : Inv s) {n : C} {p : Pc}
    (hn : NodeOk p (s.node n) (n ∈ s.queue.map Prod.snd)) : Inv (s.goto n p) := by
  refine hi.of_call n rfl rfl rfl (fun m hm => ⟨rfl, Function.update_of_ne hm ..⟩) ?_
  rw [show (s.goto n p).pc n = p from Function.update_self ..]
  exact hn

/-- STEP: somebody else wins the race. -/
theorem Inv.raceResume {s : State C} (hi : Inv s) {n : C} (hnone : (s.node n).resumeInfo = none) :
    Inv (s.setNode n { s.node n with resumeInfo := some .queue }) := by
  refine hi.of_call n rfl rfl rfl (fun m hm => ⟨Function.update_of_ne hm .., rfl⟩) ?_
  rw [show (s.setNode n { s.node n with resumeInfo := some .queue }).node n =
    { s.node n with resumeInfo := some .queue } from Function.update_self ..]
  have h := hi.node n
  refine ⟨?_, ?_, fun _ => rfl, fun hidle => ⟨nofun, (h.idle hidle).2⟩, fun _ => rfl⟩
  · rw [h.queued, hnone]
    exact ⟨fun hq => ⟨hq.1, nofun, hq.2.2⟩, fun hq => ⟨hq.1, nofun, hq.2.2⟩⟩
  · have hresumes := h.resumes
    rw [hnone] at hresumes
    exact hresumes

/-- STEP: a resumed call goes on, unless the timer is done with it, to the section of `erase`. -/
theorem Inv.look {s : State C} (hi : Inv s) {n : C} (hpc : s.pc n = .asleep)
    (hrace : (s.node n).resumeInfo ≠ none) : Inv (look s n) := by
  have h := hi.node n
  rw [hpc] at h
  rw [Deadlines.look]
  split_ifs with hdone
  · refine hi.goto ⟨?_, h.resumes, h.expired, nofun, nofun⟩
    rw [h.queued]
    refine ⟨fun hq => absurd hdone (not_or.mpr ⟨hq.2.1, ?_⟩), fun hq => ?_⟩
    · rw [hq.2.2]; exact Bool.false_ne_true
    · rcases hq.1 with hp | hp <;> cases hp
  · obtain ⟨htimer, hexp⟩ := not_or.mp hdone
    refine hi.goto ⟨?_, h.resumes, h.expired, nofun, fun _ => ?_⟩
    · rw [h.queued]
      exact ⟨fun hq => ⟨.inr rfl, hq.2⟩, fun hq => ⟨.inl rfl, hq.2⟩⟩
    · cases hw : (s.node n).resumeInfo with
      | none => exact absurd hw hrace
      | some w =>
        cases w with
        | queue => rfl
        | timer => exact absurd hw htimer

/-- STEP: `enqueue` re-arms the timer if its entry is the first; if not, the first one is covered, and
    so is the new one behind it. -/
theorem Inv.enqueue {s : State C} (hi : Inv s) {n : C} {absTimeout : ℕ} (hpc : s.pc n = .idle)
    (hpos : 0 < absTimeout) : Inv (enqueue s n absTimeout) := by
  have h := hi.node n
  rw [hpc] at h
  have hn : n ∉ s.queue.map Prod.snd := fun hq => by
    rcases (h.queued.mp hq).1 with hp | hp <;> cases hp
  have hsorted := hi.sorted.insert absTimeout n
  refine ⟨hsorted, nodup_insert absTimeout hi.nodup hn, fun e he => ?_, fun m => ?_, ?_⟩
  · rcases (mem_insert_iff absTimeout n e s.queue).mp he with rfl | hold
    · exact hpos
    · exact hi.pos e hold
  · show NodeOk (Function.update s.pc n .asleep m) (s.node m)
      (m ∈ (insert absTimeout n s.queue).map Prod.snd)
    rcases eq_or_ne m n with rfl | hne
    · rw [Function.update_self]
      refine ⟨?_, h.resumes, h.expired, nofun, nofun⟩
      rw [mem_insert]
      exact ⟨fun _ => ⟨.inl rfl, h.idle rfl⟩, fun _ => .inl rfl⟩
    · rw [Function.update_of_ne hne, mem_insert, or_iff_right hne]
      exact hi.node m
  · rcases head_insert absTimeout hn with hhead | ⟨e, he, hle, hhead⟩
    · refine .inl fun e he => ?_
      show Timer.covers (if _ then _ else _) e.1
      rw [if_pos hhead]
      exact covers_setTimer hpos (hsorted.head_le hhead he)
    · refine hi.covered.imp_left fun hcov e' he' => ?_
      show Timer.covers (if _ then _ else _) e'.1
      rw [if_neg hhead]
      rcases (mem_insert_iff absTimeout n e' s.queue).mp he' with rfl | hold
      · exact (hcov e he).imp_left fun ⟨t, ht, hte⟩ => ⟨t, ht, Nat.le_trans hte hle⟩
      · exact hcov e' hold

/-- STEP: `erase` leaves the timer as it is. -/
theorem Inv.erase {s : State C} (hi : Inv s) {n : C} (hpc : s.pc n = .erasing) :
    Inv (erase s n) := by
  have h := hi.node n
  rw [hpc] at h
  rw [Deadlines.erase]
  cases hexp : (s.node n).expired with
  | true =>
    refine hi.goto ⟨?_, h.resumes, h.expired, nofun, nofun⟩
    rw [h.queued, hexp]
    exact ⟨fun hq => (nomatch hq.2.2), fun hq => (nomatch hq.2.2)⟩
  | false =>
    have hsub : ∀ e ∈ eraseEntry n s.queue, e ∈ s.queue := fun e he => List.mem_of_mem_filter he
    refine ⟨hi.sorted.sublist List.filter_sublist, nodup_eraseEntry n hi.nodup,
      fun e he => hi.pos e (hsub e he), fun m => ?_, hi.covered.imp_left fun hc e he => hc e (hsub e he)⟩
    show NodeOk (Function.update s.pc n .done m) (s.node m)
      (m ∈ (eraseEntry n s.queue).map Prod.snd)
    rw [mem_eraseEntry]
    rcases eq_or_ne m n with rfl | hne
    · rw [Function.update_self]
      refine ⟨⟨fun hq => absurd rfl hq.2, fun hq => ?_⟩, h.resumes, h.expired, nofun, nofun⟩
      rcases hq.1 with hp | hp <;> cases hp
    · rw [Function.update_of_ne hne, and_iff_left hne]
      exact hi.node m

omit [DecidableEq C] in
/-- The entries that stay are not due. -/
theorem mem_later {now : ℕ} {queue : List (ℕ × C)} (h : (queue.map Prod.snd).Nodup) (n : C) :
    n ∈ (later now queue).map Prod.snd ↔
    n ∈ queue.map Prod.snd ∧ n ∉ (due now queue).map Prod.snd := by
  constructor
  · rintro hmem
    obtain ⟨e, he, rfl⟩ := List.mem_map.mp hmem
    obtain ⟨hq, hnow⟩ := List.mem_filter.mp he
    refine ⟨List.mem_map.mpr ⟨e, hq, rfl⟩, fun hdue => ?_⟩
    obtain ⟨e', he', heq⟩ := List.mem_map.mp hdue
    obtain ⟨hq', hle⟩ := List.mem_filter.mp he'
    have hsame : e' = e := List.inj_on_of_nodup_map h hq' hq heq
    subst hsame
    exact absurd (of_decide_eq_true hle) (Nat.not_le_of_lt (of_decide_eq_true hnow))
  · rintro ⟨hmem, hnot⟩
    obtain ⟨e, he, rfl⟩ := List.mem_map.mp hmem
    refine List.mem_map.mpr ⟨e, List.mem_filter.mpr ⟨he, decide_eq_true ?_⟩, rfl⟩
    by_contra hle
    exact hnot (List.mem_map.mpr ⟨e, List.mem_filter.mpr
      ⟨he, decide_eq_true (Nat.le_of_not_lt hle)⟩, rfl⟩)

/-- STEP: the section of `checkExpiry`. -/
theorem Inv.checkExpiry {s : State C} (hi : Inv s) (now : ℕ) (p : Poller) :
    Inv { checkExpiry now s.queue s with poller := p } := by
  have hx := checkExpiry_expires now s.queue s hi.sorted hi.nodup hi.pos
  have hq := hx.queue_eq
  refine ⟨?_, ?_, ?_, fun n => ?_, .inl hx.timer⟩
  · show Sorted (Deadlines.checkExpiry now s.queue s).queue
    rw [hq]
    exact hi.sorted.sublist List.filter_sublist
  · show ((Deadlines.checkExpiry now s.queue s).queue.map Prod.snd).Nodup
    rw [hq]
    exact hi.nodup.sublist (List.filter_sublist.map Prod.snd)
  · show ∀ e ∈ (Deadlines.checkExpiry now s.queue s).queue, 0 < e.1
    rw [hq]
    exact fun e he => hi.pos e (List.mem_of_mem_filter he)
  · show NodeOk ((Deadlines.checkExpiry now s.queue s).pc n)
      ((Deadlines.checkExpiry now s.queue s).node n)
      (n ∈ (Deadlines.checkExpiry now s.queue s).queue.map Prod.snd)
    have h := hi.node n
    rw [hq, hx.pc, hx.node n, mem_later hi.nodup]
    by_cases hdue : n ∈ (due now s.queue).map Prod.snd
    · have hin : n ∈ s.queue.map Prod.snd := (List.filter_sublist.map Prod.snd).subset hdue
      rw [if_pos hdue]
      exact (h.expire hin).congr (iff_of_false (fun hq => hq.2 hdue) not_false)
    · rw [if_neg hdue, and_iff_left hdue]
      exact h

/-- STEP: the poller. A timer that is read is served by the `checkExpiry` that follows, however the
    timer is set in between. -/
theorem Inv.poller {s s' : State C} (hi : Inv s) (h : poller s = some s') : Inv s' := by
  rw [Deadlines.poller] at h
  split at h
  case h_1 hp =>
    have hcov := hi.covered.resolve_right (by rw [hp]; nofun)
    cases h
    split_ifs
    · exact hi.of_calls rfl rfl rfl (.inl hcov)
    · exact hi.of_calls rfl rfl rfl (.inl hcov)
  case h_2 hp =>
    have hcov := hi.covered.resolve_right (by rw [hp]; nofun)
    cases h
    split_ifs
    · exact hi.of_calls rfl rfl rfl (.inr rfl)
    · exact hi.of_calls rfl rfl rfl (.inl hcov)
  case h_3 => cases h; exact hi.of_calls rfl rfl rfl (.inr rfl)
  case h_4 now _ => cases h; exact hi.checkExpiry now .doPoll
  case h_5 hp =>
    have hcov := hi.covered.resolve_right (by rw [hp]; nofun)
    cases h
    exact hi.of_calls rfl rfl rfl (.inl hcov)
  case h_6 => cases h

/-- STEP: every step keeps the invariant. -/
theorem Inv.step {s s' : State C} {a : Action C} (hi : Inv s) (h : step s a = some s') :
    Inv s' := by
  cases a with
  | enqueue n absTimeout =>
    obtain ⟨⟨hpc, hpos⟩, h⟩ := Option.ite_none_right_eq_some.mp h
    cases h
    exact hi.enqueue hpc hpos
  | raceResume n =>
    obtain ⟨hnone, h⟩ := Option.ite_none_right_eq_some.mp h
    cases h
    exact hi.raceResume hnone
  | look n =>
    obtain ⟨⟨hpc, hrace⟩, h⟩ := Option.ite_none_right_eq_some.mp h
    cases h
    exact hi.look hpc hrace
  | erase n =>
    obtain ⟨hpc, h⟩ := Option.ite_none_right_eq_some.mp h
    cases h
    exact hi.erase hpc
  | clock now =>
    cases h
    exact hi.of_calls rfl rfl rfl hi.covered
  | fire =>
    rw [Deadlines.step] at h
    split at h
    case h_1 =>
      obtain ⟨-, h⟩ := Option.ite_none_right_eq_some.mp h
      cases h
      exact hi.of_calls rfl rfl rfl (.inl fun _ _ => .inr rfl)
    case h_2 => cases h
  | doPoll timer =>
    obtain ⟨⟨hp, -⟩, h⟩ := Option.ite_none_right_eq_some.mp h
    have hcov := hi.covered.resolve_right (by rw [hp]; nofun)
    cases h
    exact hi.of_calls rfl rfl rfl (.inl hcov)
  | poller => exact hi.poller h

/-- RUN: the invariant holds. -/
theorem inv_reach {s : State C} (h : Reach (system C) s) : Inv s := by
  refine h.inv ?_ fun _ _ _ hi hs => hi.step hs
  rintro s ⟨now, rfl⟩
  refine ⟨List.Pairwise.nil, List.nodup_nil, fun _ he => absurd he List.not_mem_nil, fun n => ?_,
    .inl fun _ he => absurd he List.not_mem_nil⟩
  refine ⟨⟨fun hq => absurd hq List.not_mem_nil, fun hq => ?_⟩, rfl, nofun, fun _ => ⟨nofun, rfl⟩,
    nofun⟩
  rcases hq.1 with hp | hp <;> cases hp

/-! ### No deadline is missed, none fires early -/

/-- What the poller does next once the timer is readable. -/
def served (s : State C) : List (Action C) :=
  match s.poller with
  | .tryblock =>
    if s.sync then [.poller, .poller, .poller]
    else [.poller, .doPoll true, .poller, .poller, .poller, .poller]
  | .read => [.poller, .poller]
  | .sample => [.poller]
  | .expire _ => []
  | .doPoll => [.doPoll true, .poller, .poller, .poller, .poller]
  | .notify => [.poller, .poller, .poller, .poller]

/-- PROGRESS: a timer that is readable is served by the poller's own next steps. -/
theorem readable_served {s : State C} (h : s.timer.readable = true) :
    ∃ s' now, exec (system C) s (served s) = some s' ∧ s'.poller = .expire now := by
  obtain ⟨clock, queue, ⟨armed, readable⟩, sync, poller, node, pc⟩ := s
  cases h
  cases poller with
  | tryblock => cases sync <;> exact ⟨_, _, rfl, rfl⟩
  | _ => exact ⟨_, _, rfl, rfl⟩

/-- CORRECT: with the lock free, the timer is armed for the earliest deadline at the latest, or it has
    fired and the poller is still to get to it. A `checkExpiry` by time `now` takes out exactly the
    entries that are due, and resumes each of their calls once if it wins its race and marks it expired
    if not; it leaves every other call alone. -/
theorem deadlines_kept {s : State C} (h : Reach (system C) s) :
    (s.queue ≠ [] →
      (∃ timeout, s.timer.armed = some timeout ∧ ∀ e ∈ s.queue, timeout ≤ e.1) ∨
      s.timer.readable = true ∨ s.poller.processing = true) ∧
    (s.timer.readable = true →
      ∃ s' now, exec (system C) s (served s) = some s' ∧ s'.poller = .expire now) ∧
    ∀ now s', s.poller = .expire now → step s .poller = some s' →
      s'.queue = later now s.queue ∧
      ∀ n, (n ∈ (due now s.queue).map Prod.snd →
          (s.node n).resumes = 0 ∧ (s.node n).expired = false ∧
          ((s.node n).resumeInfo = none → (s'.node n).resumes = 1 ∧ (s'.node n).expired = false) ∧
          ((s.node n).resumeInfo ≠ none → (s'.node n).resumes = 0 ∧ (s'.node n).expired = true)) ∧
        (n ∉ (due now s.queue).map Prod.snd → s'.node n = s.node n) := by
  have hi := inv_reach h
  refine ⟨fun hne => ?_, readable_served, fun now s' hp hs => ?_⟩
  · rcases hi.covered with hcov | hproc
    · cases hq : s.queue with
      | nil => exact absurd hq hne
      | cons e queue =>
        rcases hcov e (by rw [hq]; exact List.mem_cons_self ..) with ⟨t, ht, hle⟩ | hread
        · refine .inl ⟨t, ht, fun e' he' => Nat.le_trans hle ?_⟩
          rw [← hq] at he'
          exact hi.sorted.head_le (by rw [hq]; rfl) he'
        · exact .inr (.inl hread)
    · exact .inr (.inr hproc)
  · have hx := checkExpiry_expires now s.queue s hi.sorted hi.nodup hi.pos
    rw [step, poller, hp, Option.some.injEq] at hs
    subst hs
    refine ⟨hx.queue_eq, fun n => ⟨fun hdue => ?_, fun hnot => ?_⟩⟩
    · have hin : n ∈ s.queue.map Prod.snd := (List.filter_sublist.map Prod.snd).subset hdue
      obtain ⟨-, hrace, hexp⟩ := (hi.node n).queued.mp hin
      have hresumes := (hi.node n).resumes
      rw [if_neg hrace] at hresumes
      have hn : (checkExpiry now s.queue s).node n = (s.node n).expire := by
        rw [hx.node n, if_pos hdue]
      refine ⟨hresumes, hexp, fun hnone => ?_, fun hsome => ?_⟩
      · show ((checkExpiry now s.queue s).node n).resumes = 1 ∧
          ((checkExpiry now s.queue s).node n).expired = false
        rw [hn, Node.expire, if_pos hnone]
        exact ⟨congrArg (· + 1) hresumes, hexp⟩
      · show ((checkExpiry now s.queue s).node n).resumes = 0 ∧
          ((checkExpiry now s.queue s).node n).expired = true
        rw [hn, Node.expire, if_neg hsome]
        exact ⟨hresumes, rfl⟩
    · show (checkExpiry now s.queue s).node n = s.node n
      rw [hx.node n, if_neg hnot]

/-- Two calls wait; the timer fires for the first, which somebody else resumes meanwhile, and a third
    call sets the timer anew before the poller has read it. -/
def resetTimer (n m l : C) : List (Action C) :=
  [.enqueue n 5, .enqueue m 9, .clock 6, .fire, .poller, .doPoll true, .poller, .raceResume n,
    .enqueue l 3, .poller, .poller, .poller]

theorem deadlines_kept_resetTimer : ∃ s s' : State (Fin 3), Reach (system (Fin 3)) s ∧
    s.poller = .expire 6 ∧ step s .poller = some s' ∧ s'.queue = [(9, 1)] ∧
    (s'.node 0).expired = true ∧ (s'.node 2).resumes = 1 := by
  obtain ⟨s, hr, hp⟩ := reach_of_exec (system (Fin 3)) (start 0) (resetTimer 0 1 2)
    (fun s => decide (s.poller = .expire 6 ∧ s.queue = [(3, 2), (5, 0), (9, 1)] ∧
      (s.node 0).resumeInfo = some .queue ∧ (s.node 2).resumeInfo = none)) ⟨0, rfl⟩ (by decide)
  obtain ⟨hpoller, hqueue, hwon, hfree⟩ := of_decide_eq_true hp
  obtain ⟨s', hs⟩ : ∃ s', step s .poller = some s' := by
    rw [step, poller, hpoller]
    exact ⟨_, rfl⟩
  obtain ⟨-, -, hrun⟩ := deadlines_kept hr
  obtain ⟨hq, hcalls⟩ := hrun 6 s' hpoller hs
  rw [hqueue] at hq hcalls
  obtain ⟨-, -, -, hlost⟩ := (hcalls 0).1 (by decide)
  obtain ⟨-, -, hresumed, -⟩ := (hcalls 2).1 (by decide)
  exact ⟨s, s', hr, hpoller, hs, hq, (hlost (by rw [hwon]; nofun)).2, (hresumed hfree).1⟩

end Libfibre.TimerQueue.Deadlines
