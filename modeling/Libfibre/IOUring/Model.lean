import Libfibre.Schemes.Transition
import Mathlib.Data.List.Count
import Mathlib.Data.Int.Notation
import Mathlib.Tactic.SplitIfs

/-! `IOUring` (`IOUring.h`): the ring of one worker. A fibre's `syncIO` puts an entry with its block into the
    submission queue and sleeps; whoever polls takes the completions out, writes each result to its
    block and resumes the fibre. One entry without a block reads the worker's eventfd: its completion
    ends the worker's `halt`, and a new one replaces it. Entries are submitted in batches, when a
    batch is full or the worker polls.

        syncIO ─▶ filling ─▶ (sq) ─submit▶ (kernel) ─▶ (cq) ─processCQE▶ resumed ─▶ out

    Only the worker touches the queues; each call of liburing, each completion in the kernel, each
    `processCQE` and each `resume` by another worker is one step. A worker is resumed by whoever takes
    it out of the idle manager's list, and is put there before it halts. -/

namespace Libfibre.IOUring
open Transition

/-- How many entries make a batch. -/
def BatchSize : ℕ := 64

/-- The size of the submission queue. -/
def NumEntries : ℕ := 4096

variable {F : Type}

/-- The data of an entry: the block of a fibre, or null for the read of the eventfd. -/
inductive Entry (F : Type) where
  | halt
  | block (f : F)
  deriving DecidableEq

/-- `PollType`; `check` has the place in `submit` that it returns to: with an entry to put in, or with
    the batch to submit. -/
inductive PollType (F : Type) where
  | poll
  | suspend
  | trying
  | check (e : Option (Entry F))

/-- Where the worker is. -/
inductive Worker (F : Type) where
  | running
  | halting                                            -- in `halt`, between two attempts
  | filling (e : Entry F)                              -- `submit`: before `io_uring_get_sqe`
  | full (e : Entry F)                                 -- no room: before `submitRing`
  | batching                                           -- `while (!submitRing())`
  | starting (pt : PollType F)                         -- `internalPoll`: before `submitRing`
  | waiting                                            -- before `io_uring_wait_cqe`
  | peeking (pt : PollType F) (resume : ℕ)
  | processing (pt : PollType F) (n resume : ℕ)        -- `n` completions of the batch are left

/-- Where a fibre is. -/
inductive Pc where
  | out
  | waiting
  | resumed (retcode : ℤ)
  deriving DecidableEq

/-- The fibres, the two queues with the kernel between them, and the worker. -/
structure State (F : Type) where
  pc : F → Pc
  sq : List (Entry F)
  kernel : List (Entry F)
  cq : List (Entry F × ℤ)
  sqe_count : ℕ
  worker : Worker F
  eventfd : ℕ
  count : ℕ               -- what the last read of the eventfd has returned
  enlisted : Bool         -- in the idle manager's list of waiting workers

/-- A fibre, the worker, the kernel or one that resumes the worker takes a step. -/
inductive Action (F : Type) where
  | syncIO (f : F)
  | getSqe
  | submit (n : Option ℕ)
  | waitCqe
  | peek
  | processCQE
  | endPoll
  | poll
  | block
  | trySuspend
  | suspend
  | resume
  | complete (f : F) (res : ℤ)
  | completeHalt
  | return (f : F) (ret : ℤ)

variable [DecidableEq F]

/-- The worker goes to another place. -/
def State.at (s : State F) (w : Worker F) : State F := { s with worker := w }

/-- `io_uring_submit` and what `submitRing` makes of it; none: `EBUSY` or `EAGAIN`. -/
def submitRing (s : State F) : Option ℕ → State F
  | none => s
  | some n => { s with
      sq := s.sq.drop n, kernel := s.kernel ++ s.sq.take n, sqe_count := s.sqe_count - n }

/-- `internalPoll` past `submitRing`. -/
def Worker.submitted : PollType F → Worker F
  | .suspend => .waiting
  | pt => .peeking pt 0

/-- `internalPoll` up to `submitRing`; for `check` there is none. -/
def enter (s : State F) (pt : PollType F) : State F :=
  s.at (if s.sqe_count = 0 then .submitted pt else .starting pt)

/-- `processCQE`. -/
def processCQE (s : State F) (resume : ℕ) : Entry F × ℤ → State F × ℕ
  | (.halt, _) => (s, resume + 1)
  | (.block f, res) => ({ s with pc := Function.update s.pc f (.resumed res) }, resume)

/-- What follows `internalPoll`. -/
def endPoll (s : State F) (resume : ℕ) : PollType F → State F
  | .poll => s.at .running
  | .check (some e) => s.at (.filling e)
  | .check none => s.at .batching
  | .trying => s.at (if resume = 0 then .halting else .filling .halt)
  | .suspend => if resume = 0 then enter s .suspend else s.at (.filling .halt)

/-- `submit` from `io_uring_get_sqe`. -/
def getSqe (s : State F) (e : Entry F) : State F :=
  if s.sq.length < NumEntries then
    State.at { s with sq := s.sq ++ [e], sqe_count := s.sqe_count + 1 }
      (if s.sqe_count + 1 < BatchSize then .running else .batching)
  else s.at (.full e)

/-- One step. -/
def step (s : State F) : Action F → Option (State F)
  | Action.syncIO f =>
    match s.worker with
    | .running =>
      if s.pc f = .out then
        some (State.at { s with pc := Function.update s.pc f .waiting } (.filling (.block f)))
      else none
    | _ => none
  | .getSqe =>
    match s.worker with
    | .filling e => some (getSqe s e)
    | _ => none
  | .submit n =>
    -- with entries to submit, `io_uring_submit` returns how many it has, or fails
    if ∀ k, n = some k → 1 ≤ k ∧ k ≤ s.sq.length then
      match s.worker with
      | .batching => some ((submitRing s n).at (if n.isSome then .running else .peeking (.check none) 0))
      | .full e => some ((submitRing s n).at (if n.isSome then .filling e else .peeking (.check (some e)) 0))
      | .starting pt => some ((submitRing s n).at (.submitted pt))
      | _ => none
    else none
  | .waitCqe =>
    match s.worker, s.cq with
    | .waiting, c :: cq =>
      let (s', resume) := processCQE { s with cq := cq } 0 c
      some (s'.at (.peeking .suspend resume))
    | _, _ => none
  | .peek =>
    match s.worker with
    | .peeking pt resume => some (s.at (.processing pt (min s.cq.length NumEntries) resume))
    | _ => none
  | .processCQE =>
    match s.worker, s.cq with
    | .processing pt (n + 1) resume, c :: cq =>
      let (s', resume) := processCQE { s with cq := cq } resume c
      some (s'.at (.processing pt n resume))
    | _, _ => none
  | .endPoll =>
    match s.worker with
    | .processing pt 0 resume => some (endPoll s resume pt)
    | _ => none
  | .poll =>
    match s.worker with
    | .running => some (enter s .poll)
    | _ => none
  | .block =>
    match s.worker with
    | .running => some (State.at { s with enlisted := true } .halting)
    | _ => none
  | .trySuspend =>
    match s.worker with
    | .halting => some (enter s .trying)
    | _ => none
  | .suspend =>
    match s.worker with
    | .halting => some (enter s .suspend)
    | _ => none
  | .resume =>
    if s.enlisted then some { s with enlisted := false, eventfd := s.eventfd + 1 } else none
  | .complete f res =>
    if .block f ∈ s.kernel then
      some { s with kernel := s.kernel.erase (.block f), cq := s.cq ++ [(.block f, res)] }
    else none
  | .completeHalt =>
    if .halt ∈ s.kernel ∧ 0 < s.eventfd then
      some { s with
        kernel := s.kernel.erase .halt, cq := s.cq ++ [(.halt, 8)], count := s.eventfd, eventfd := 0 }
    else none
  | .return f ret => if s.pc f = .resumed ret then some { s with pc := Function.update s.pc f .out } else none

/-- The constructor is about to submit the read of the eventfd. -/
def State.init : State F := ⟨fun _ => .out, [], [], [], 0, .filling .halt, 0, 0, false⟩

/-- All interleavings of the fibres, the worker and the kernel. -/
def system (F : Type) [DecidableEq F] : System (State F) (Action F) := ⟨fun s => s = .init, step⟩

/-! ### The invariant -/

/-- The entry that `submit` is still to put in. -/
def PollType.hand : PollType F → List (Entry F)
  | .check (some e) => [e]
  | _ => []

/-- The entry in the hand of `submit`. -/
def Worker.hand : Worker F → List (Entry F)
  | .filling e | .full e => [e]
  | .starting pt | .peeking pt _ | .processing pt _ _ => pt.hand
  | _ => []

/-- `resume` of `internalPoll`. -/
def Worker.seen : Worker F → ℕ
  | .peeking _ resume | .processing _ _ resume => resume
  | _ => 0

/-- The worker polls as it has nothing else to do. -/
def PollType.halts : PollType F → Bool
  | .suspend | .trying => true
  | _ => false

/-- In `halt`, and yet to see that it has been resumed. -/
def Worker.halts : Worker F → Bool
  | .halting | .waiting => true
  | .starting pt | .peeking pt _ | .processing pt _ _ => pt.halts
  | _ => false

/-- In the loop that submits a full batch. -/
def Worker.batches : Worker F → Bool
  | .batching | .peeking (.check none) _ | .processing (.check none) _ _ => true
  | _ => false

/-- Places that need a full submission queue. -/
def Worker.fits : Worker F → Bool
  | .full _ | .starting (.check _) | .peeking (.check (some _)) _ | .processing (.check (some _)) _ _ => false
  | _ => true

/-- How often an entry is about: in a queue, in the kernel, or in the hand of `submit`, before its fibre
    sleeps. -/
def State.total (s : State F) (e : Entry F) : ℕ :=
  s.sq.count e + s.kernel.count e + (s.cq.map Prod.fst).count e + s.worker.hand.count e

/-- Completions of the eventfd's read that are still to be processed. -/
def State.wakes (s : State F) : ℕ := (s.cq.map Prod.fst).count .halt

/-- INVARIANT: every entry is in one place, as often as somebody waits for it; the worker has been resumed
    once at most, and what tells it so is in the eventfd, in the completion queue or in its hands. -/
structure Inv (s : State F) : Prop where
  sqes : s.sqe_count = s.sq.length
  room : s.sq.length < BatchSize ∨ s.sq.length = BatchSize ∧ s.worker.batches = true
  fits : s.worker.fits = true
  blocks : ∀ f, s.total (.block f) = if s.pc f = .waiting then 1 else 0
  halts : s.total .halt + s.worker.seen = 1
  token : s.eventfd + s.wakes + s.worker.seen = if s.worker.halts && !s.enlisted then 1 else 0
  listed : s.enlisted = true → s.worker.halts = true
  counted : 0 < s.wakes + s.worker.seen → s.count = 1

variable {s s' : State F} {w : Worker F} {pt : PollType F} {e : Entry F} {f : F} {a : Action F}

/-- The worker goes on, with nothing but its place changed. -/
theorem Inv.at (h : Inv s)
    (hbatches : s.sq.length < BatchSize ∨ (s.worker.batches = true → w.batches = true))
    (hfits : w.fits = true)
    (hhand : w.hand = s.worker.hand) (hseen : w.seen = s.worker.seen)
    (hhalts : w.halts = s.worker.halts) : Inv (s.at w) where
  sqes := h.sqes
  room := hbatches.elim .inl fun hb => h.room.imp_right fun hr => ⟨hr.1, hb hr.2⟩
  fits := hfits
  blocks f := by
    rw [State.total, State.at, hhand]
    exact h.blocks f
  halts := by
    rw [State.total, State.at, hhand, hseen]
    exact h.halts
  token := by
    rw [State.at, hseen, hhalts]
    exact h.token
  listed hl := hhalts.trans (h.listed hl)
  counted := by
    rw [State.at, hseen]
    exact h.counted

omit [DecidableEq F] in
theorem submitted_props (pt : PollType F) (hpt : ∀ e, pt ≠ .check e) :
    (Worker.submitted pt).fits = true ∧ (Worker.submitted pt).hand = [] ∧
      (Worker.submitted pt).seen = 0 ∧ (Worker.submitted pt).halts = pt.halts := by
  cases pt with
  | check e => exact absurd rfl (hpt e)
  | _ => exact ⟨rfl, rfl, rfl, rfl⟩

/-- `internalPoll` begins. -/
theorem Inv.enter (h : Inv s) (hpt : ∀ e, pt ≠ .check e) (hbatches : s.worker.batches = false)
    (hhand : s.worker.hand = []) (hseen : s.worker.seen = 0) (hhalts : pt.halts = s.worker.halts) :
    Inv (enter s pt) := by
  obtain ⟨hfits', hhand', hseen', hhalts'⟩ := submitted_props pt hpt
  have hno : ∀ w : Worker F, s.worker.batches = true → w.batches = true := by
    rw [hbatches]
    nofun
  rw [IOUring.enter]
  split
  · exact h.at (.inr (hno _)) hfits' (hhand'.trans hhand.symm) (hseen'.trans hseen.symm)
      (hhalts'.trans hhalts)
  · refine h.at (.inr (hno _)) ?_ ?_ hseen.symm hhalts
    · cases pt with
      | check e => exact absurd rfl (hpt e)
      | _ => rfl
    · rw [hhand]
      cases pt with
      | check e => exact absurd rfl (hpt e)
      | _ => rfl

/-- `submitRing` moves entries into the kernel. -/
theorem Inv.submitRing (h : Inv s) {n : Option ℕ} (hn : ∀ k, n = some k → 1 ≤ k ∧ k ≤ s.sq.length) :
    Inv (submitRing s n) ∧ (n.isSome = true → (IOUring.submitRing s n).sq.length < BatchSize) := by
  cases n with
  | none => exact ⟨h, nofun⟩
  | some k =>
    obtain ⟨hpos, hle⟩ := hn k rfl
    have hcount : ∀ e, (s.sq.drop k).count e + (s.kernel ++ s.sq.take k).count e
        = s.sq.count e + s.kernel.count e := by
      intro e
      have hsplit := congrArg (List.count e) (List.take_append_drop k s.sq)
      rw [List.count_append] at hsplit
      rw [List.count_append]
      omega
    have htotal : ∀ e, (IOUring.submitRing s (some k)).total e = s.total e := by
      intro e
      have := hcount e
      rw [State.total, State.total]
      exact congrArg (fun m => m + (s.cq.map Prod.fst).count e + s.worker.hand.count e) this
    have hlen : (s.sq.drop k).length < BatchSize := by
      have hroom := h.room
      rw [List.length_drop]
      omega
    refine ⟨⟨?_, .inl hlen, h.fits, fun f => (htotal _).trans (h.blocks f), ?_, h.token, h.listed, h.counted⟩,
      fun _ => hlen⟩
    · show s.sqe_count - k = (s.sq.drop k).length
      rw [List.length_drop, h.sqes]
    · rw [htotal]
      exact h.halts

/-- The submission queue has room for the entry: `submit` takes it in its first round. -/
theorem Inv.room_for (h : Inv s) (hw : s.worker = .filling e) : s.sq.length < BatchSize :=
  h.room.resolve_right fun hr => by
    rw [hw] at hr
    cases hr.2

/-- `submit` puts the entry in. -/
theorem Inv.getSqe (h : Inv s) (hw : s.worker = .filling e) : Inv (getSqe s e) := by
  have hroom := h.room_for hw
  have hlt : s.sq.length < NumEntries := Nat.lt_trans hroom (by decide)
  have hsqes := h.sqes
  rw [IOUring.getSqe, if_pos hlt]
  set w : Worker F := if s.sqe_count + 1 < BatchSize then .running else .batching with hwdef
  have hquiet : w.fits = true ∧ w.hand = [] ∧ w.seen = 0 ∧ w.halts = false := by
    rw [hwdef]
    split <;> exact ⟨rfl, rfl, rfl, rfl⟩
  obtain ⟨hfits, hhand, hseen, hhalts⟩ := hquiet
  have htotal : ∀ e', (s.sq ++ [e]).count e' + s.kernel.count e' + (s.cq.map Prod.fst).count e'
      + w.hand.count e' = s.total e' := by
    intro e'
    rw [State.total, hw, hhand, List.count_append]
    show s.sq.count e' + [e].count e' + _ + _ + 0 = s.sq.count e' + _ + _ + [e].count e'
    omega
  have hseen' : s.worker.seen = 0 := by rw [hw]; rfl
  have hhalts' : s.worker.halts = false := by rw [hw]; rfl
  refine ⟨?_, ?_, hfits, fun f => (htotal _).trans (h.blocks f), ?_, ?_, fun hl => ?_, ?_⟩
  · show s.sqe_count + 1 = (s.sq ++ [e]).length
    rw [List.length_append, hsqes]
    rfl
  · show (s.sq ++ [e]).length < BatchSize ∨ (s.sq ++ [e]).length = BatchSize ∧ w.batches = true
    rw [List.length_append, List.length_singleton, hwdef, hsqes]
    split
    · exact .inl ‹_›
    · exact .inr ⟨by omega, rfl⟩
  · have hh := h.halts
    rw [hseen'] at hh
    show _ + w.seen = 1
    rw [hseen]
    exact (htotal .halt).trans hh
  · show s.eventfd + s.wakes + w.seen = if w.halts && !s.enlisted then 1 else 0
    have ht := h.token
    rw [hseen', hhalts'] at ht
    rw [hseen, hhalts]
    exact ht
  · have hl' := h.listed hl
    rw [hhalts'] at hl'
    cases hl'
  · show 0 < s.wakes + w.seen → s.count = 1
    have hc := h.counted
    rw [hseen'] at hc
    rw [hseen]
    exact hc

/-- `processCQE` of the first completion, in a place that holds the same entry. -/
theorem Inv.processCQE (h : Inv s) {c : Entry F × ℤ} {cq : List (Entry F × ℤ)} (hcq : s.cq = c :: cq)
    (hbatches : s.worker.batches = true → w.batches = true) (hfits : w.fits = true)
    (hhand : w.hand = s.worker.hand) (hhalts : w.halts = s.worker.halts)
    (hseen : w.seen = (processCQE { s with cq := cq } s.worker.seen c).2) :
    Inv ((processCQE { s with cq := cq } s.worker.seen c).1.at w) ∧
      (c.1 = .halt → s.worker.seen = 0 ∧ s.worker.halts = true) := by
  obtain ⟨e, res⟩ := c
  have hwakes : s.wakes = (cq.map Prod.fst).count .halt + if e = .halt then 1 else 0 := by
    rw [State.wakes, hcq, List.map_cons, List.count_cons]
    simp
  have htotal : ∀ e', s.total e' = s.sq.count e' + s.kernel.count e' + (cq.map Prod.fst).count e'
      + w.hand.count e' + if e = e' then 1 else 0 := by
    intro e'
    rw [State.total, hcq, List.map_cons, List.count_cons, hhand]
    simp only [beq_iff_eq]
    omega
  cases e with
  | halt =>
    have hh := h.halts
    have ht := h.token
    rw [htotal .halt, if_pos rfl] at hh
    rw [hwakes, if_pos rfl] at ht
    have hnone : s.worker.seen = 0 := by omega
    have hin : (s.worker.halts && !s.enlisted) = true := by
      by_contra hne
      rw [Bool.not_eq_true] at hne
      rw [hne, if_neg Bool.false_ne_true] at ht
      omega
    have hin' := hin
    rw [Bool.and_eq_true] at hin'
    rw [hin, if_pos rfl] at ht
    refine ⟨⟨h.sqes, h.room.imp_right fun hr => ⟨hr.1, hbatches hr.2⟩, hfits, fun f => ?_, ?_, ?_,
      fun hl => hhalts.trans (h.listed hl), fun _ => ?_⟩, fun _ => ⟨hnone, hin'.1⟩⟩
    · have hb := h.blocks f
      rw [htotal, if_neg nofun] at hb
      exact hb
    · show s.sq.count .halt + s.kernel.count .halt + (cq.map Prod.fst).count .halt
        + w.hand.count .halt + w.seen = 1
      rw [hseen]
      show _ + (s.worker.seen + 1) = 1
      omega
    · show s.eventfd + (cq.map Prod.fst).count .halt + w.seen = if w.halts && !s.enlisted then 1 else 0
      rw [hhalts, hin, if_pos rfl, hseen]
      show _ + _ + (s.worker.seen + 1) = 1
      omega
    · exact h.counted (by rw [hwakes, if_pos rfl]; omega)
  | block f =>
    have hne : Entry.block f ≠ .halt := nofun
    rw [if_neg hne] at hwakes
    have hwaiting : s.pc f = .waiting := by
      by_contra hn
      have hb := h.blocks f
      rw [htotal, if_pos rfl, if_neg hn] at hb
      omega
    refine ⟨⟨h.sqes, h.room.imp_right fun hr => ⟨hr.1, hbatches hr.2⟩, hfits, fun g => ?_, ?_, ?_,
      fun hl => hhalts.trans (h.listed hl), fun hc => ?_⟩, nofun⟩
    · show s.sq.count (.block g) + s.kernel.count (.block g) + (cq.map Prod.fst).count (.block g)
        + w.hand.count (.block g) = if Function.update s.pc f (.resumed res) g = .waiting then 1 else 0
      have hb := h.blocks g
      rw [htotal] at hb
      rcases eq_or_ne g f with rfl | hg
      · rw [if_pos rfl, hwaiting, if_pos rfl] at hb
        rw [Function.update_self, if_neg nofun]
        omega
      · rw [if_neg fun he => hg (Entry.block.inj he).symm] at hb
        rw [Function.update_of_ne hg]
        exact hb
    · have hh := h.halts
      rw [htotal, if_neg hne] at hh
      show s.sq.count .halt + s.kernel.count .halt + (cq.map Prod.fst).count .halt
        + w.hand.count .halt + w.seen = 1
      rw [hseen]
      exact hh
    · have ht := h.token
      rw [hwakes] at ht
      show s.eventfd + (cq.map Prod.fst).count .halt + w.seen = if w.halts && !s.enlisted then 1 else 0
      rw [hhalts, hseen]
      exact ht
    · refine h.counted ?_
      rw [hwakes]
      have hc' : 0 < (cq.map Prod.fst).count .halt + w.seen := hc
      rw [hseen] at hc'
      exact hc'

/-- `halt` has seen that the worker is resumed: it puts in another read of the eventfd. -/
theorem Inv.resumed (h : Inv s) {resume : ℕ} (hw : s.worker = .processing pt 0 resume)
    (hpt : pt.halts = true) (hresume : resume ≠ 0) :
    Inv (s.at (.filling .halt)) ∧ s.count = 1 ∧ s.enlisted = false := by
  have hseen : s.worker.seen = resume := by rw [hw]; rfl
  have hhand : s.worker.hand = [] := by
    rw [hw]
    cases pt with
    | suspend | trying => rfl
    | poll | check e => cases hpt
  have hbatches : s.worker.batches = false := by
    rw [hw]
    cases pt with
    | suspend | trying => rfl
    | poll | check e => cases hpt
  have ht := h.token
  have hh := h.halts
  rw [hseen] at ht hh
  have hin : (s.worker.halts && !s.enlisted) = true := by
    by_contra hne
    rw [Bool.not_eq_true] at hne
    rw [hne, if_neg Bool.false_ne_true] at ht
    omega
  rw [hin, if_pos rfl] at ht
  rw [Bool.and_eq_true, Bool.not_eq_true'] at hin
  have htotal : ∀ e, (s.at (.filling .halt)).total e = s.total e + [Entry.halt].count e := by
    intro e
    rw [State.total, State.total, hhand]
    rfl
  refine ⟨⟨h.sqes, .inl (h.room.resolve_right fun hr => ?_), rfl, fun f => ?_, ?_, ?_, fun hl => ?_,
    fun hc => ?_⟩, h.counted (by rw [hseen]; omega), hin.2⟩
  · rw [hbatches] at hr
    cases hr.2
  · rw [htotal, h.blocks]
    rfl
  · rw [htotal, List.count_singleton_self]
    show s.total .halt + 1 + 0 = 1
    omega
  · show s.eventfd + s.wakes + 0 = 0
    omega
  · rw [show s.enlisted = true from hl] at hin
    cases hin.2
  · have hc' : 0 < s.wakes + 0 := hc
    omega

/-- What follows `internalPoll`. -/
theorem Inv.endPoll (h : Inv s) {resume : ℕ} (hw : s.worker = .processing pt 0 resume) :
    Inv (endPoll s resume pt) := by
  have hseen : s.worker.seen = resume := by rw [hw]; rfl
  have ht := h.token
  rw [hseen] at ht
  cases pt with
  | poll =>
    have hhalts : s.worker.halts = false := by rw [hw]; rfl
    rw [hhalts] at ht
    have hnone : resume = 0 := by
      simp only [Bool.false_and, Bool.false_eq_true, if_false] at ht
      omega
    exact h.at (.inr (by rw [hw]; nofun)) rfl (by rw [hw]; rfl) (hseen.trans hnone).symm hhalts.symm
  | check e =>
    cases e with
    | some e =>
      have hfits := h.fits
      rw [hw] at hfits
      cases hfits
    | none =>
      have hhalts : s.worker.halts = false := by rw [hw]; rfl
      rw [hhalts] at ht
      have hnone : resume = 0 := by
        simp only [Bool.false_and, Bool.false_eq_true, if_false] at ht
        omega
      exact h.at (.inr fun _ => rfl) rfl (by rw [hw]; rfl) (hseen.trans hnone).symm hhalts.symm
  | trying =>
    rw [IOUring.endPoll]
    split_ifs with hresume
    · exact h.at (.inr (by rw [hw]; nofun)) rfl (by rw [hw]; rfl) (hseen.trans hresume).symm (by rw [hw]; rfl)
    · exact (h.resumed hw rfl hresume).1
  | suspend =>
    rw [IOUring.endPoll]
    split_ifs with hresume
    · exact h.enter nofun (by rw [hw]; rfl) (by rw [hw]; rfl) (hseen.trans hresume) (by rw [hw]; rfl)
    · exact (h.resumed hw rfl hresume).1

/-- A request is completed in the kernel. -/
theorem Inv.complete (h : Inv s) {f : F} (hf : .block f ∈ s.kernel) (res : ℤ) :
    Inv { s with kernel := s.kernel.erase (.block f), cq := s.cq ++ [(.block f, res)] } := by
  have hpos := List.count_pos_iff.mpr hf
  have htotal : ∀ e, State.total { s with
      kernel := s.kernel.erase (.block f), cq := s.cq ++ [(.block f, res)] } e = s.total e := by
    intro e
    rw [State.total, State.total]
    simp only [List.map_append, List.map_cons, List.map_nil, List.count_append]
    rcases eq_or_ne e (.block f) with rfl | hne
    · rw [List.count_erase_self, List.count_singleton_self]
      omega
    · rw [List.count_erase_of_ne hne, List.count_singleton, if_neg (by simpa using hne.symm)]
      omega
  have hwakes : State.wakes { s with
      kernel := s.kernel.erase (.block f), cq := s.cq ++ [(.block f, res)] } = s.wakes := by
    simp [State.wakes]
  exact ⟨h.sqes, h.room, h.fits, fun g => (htotal _).trans (h.blocks g), by rw [htotal]; exact h.halts,
    by rw [hwakes]; exact h.token, h.listed, by rw [hwakes]; exact h.counted⟩

/-- The read of the eventfd is completed. -/
theorem Inv.completeHalt (h : Inv s) (hmem : .halt ∈ s.kernel) (hpos : 0 < s.eventfd) :
    Inv { s with
      kernel := s.kernel.erase .halt, cq := s.cq ++ [(.halt, 8)], count := s.eventfd, eventfd := 0 } := by
  have hin := List.count_pos_iff.mpr hmem
  have htotal : ∀ e, (s.kernel.erase .halt).count e + ((s.cq ++ [(Entry.halt, (8 : ℤ))]).map Prod.fst).count e
      = s.kernel.count e + (s.cq.map Prod.fst).count e := by
    intro e
    simp only [List.map_append, List.map_cons, List.map_nil, List.count_append]
    rcases eq_or_ne e .halt with rfl | hne
    · rw [List.count_erase_self, List.count_singleton_self]
      omega
    · rw [List.count_erase_of_ne hne, List.count_singleton, if_neg (by simpa using hne.symm)]
      omega
  have hwakes : ((s.cq ++ [(Entry.halt, (8 : ℤ))]).map Prod.fst).count Entry.halt = s.wakes + 1 := by
    simp [State.wakes]
  have ht := h.token
  have hle : s.eventfd = 1 ∧ s.wakes = 0 ∧ s.worker.seen = 0 := by
    split at ht
    · omega
    · omega
  refine ⟨h.sqes, h.room, h.fits, fun f => ?_, ?_, ?_, h.listed, fun _ => hle.1⟩
  · have hb := h.blocks f
    have hsum := htotal (.block f)
    rw [State.total] at hb ⊢
    dsimp only
    omega
  · have hh := h.halts
    have hsum := htotal .halt
    rw [State.total] at hh ⊢
    dsimp only
    omega
  · show 0 + ((s.cq ++ [(Entry.halt, (8 : ℤ))]).map Prod.fst).count Entry.halt + s.worker.seen = _
    rw [hwakes, ← h.token, hle.1, hle.2.1]

/-- `syncIO` begins: the block is set up. -/
theorem Inv.call (h : Inv s) (hw : s.worker = .running) (hpc : s.pc f = .out) :
    Inv (State.at { s with pc := Function.update s.pc f .waiting } (.filling (.block f))) := by
  have htotal : ∀ e, State.total
      (State.at { s with pc := Function.update s.pc f .waiting } (.filling (.block f))) e
        = s.total e + [Entry.block f].count e := by
    intro e
    rw [State.total, State.total, hw]
    rfl
  refine ⟨h.sqes, .inl (h.room.resolve_right fun hr => ?_), rfl, fun g => ?_, ?_, ?_, fun hl => ?_,
    fun hc => ?_⟩
  · rw [hw] at hr
    cases hr.2
  · rw [htotal, h.blocks]
    rcases eq_or_ne g f with rfl | hg
    · rw [hpc, List.count_singleton_self]
      simp [State.at]
    · simp [State.at, hg, hg.symm]
  · have hh := h.halts
    rw [hw] at hh
    rw [htotal]
    exact hh
  · have ht := h.token
    rw [hw] at ht
    exact ht
  · have hl' := h.listed hl
    rw [hw] at hl'
    cases hl'
  · have hcount := h.counted
    rw [hw] at hcount
    exact hcount hc

/-- A fibre that has its result leaves. -/
theorem Inv.return (h : Inv s) {ret : ℤ} (hpc : s.pc f = .resumed ret) :
    Inv { s with pc := Function.update s.pc f .out } := by
  refine ⟨h.sqes, h.room, h.fits, fun g => ?_, h.halts, h.token, h.listed, h.counted⟩
  refine (h.blocks g).trans ?_
  rcases eq_or_ne g f with rfl | hg
  · simp [hpc]
  · simp [hg]

/-- The worker goes to `halt`, on the list. -/
theorem Inv.block (h : Inv s) (hw : s.worker = .running) :
    Inv (State.at { s with enlisted := true } .halting) := by
  have htotal : ∀ e, (State.at { s with enlisted := true } .halting).total e = s.total e := by
    intro e
    rw [State.total, State.total, hw]
    rfl
  have ht := h.token
  have hh := h.halts
  have hcount := h.counted
  rw [hw] at ht hh hcount
  refine ⟨h.sqes, .inl (h.room.resolve_right fun hr => ?_), rfl, fun f => (htotal _).trans (h.blocks f), ?_,
    ht, fun _ => rfl, hcount⟩
  · rw [hw] at hr
    cases hr.2
  · rw [htotal]
    exact hh

/-- Somebody takes the worker off the list and wakes it. -/
theorem Inv.resume (h : Inv s) (hl : s.enlisted = true) :
    Inv { s with enlisted := false, eventfd := s.eventfd + 1 } := by
  have hin := h.listed hl
  have ht := h.token
  rw [hl, hin] at ht
  refine ⟨h.sqes, h.room, h.fits, h.blocks, h.halts, ?_, nofun, h.counted⟩
  show s.eventfd + 1 + s.wakes + s.worker.seen = if s.worker.halts && !false then 1 else 0
  rw [hin, if_pos (by decide)]
  rw [if_neg (by decide)] at ht
  omega

omit [DecidableEq F] in
theorem submitRing_worker (s : State F) (n : Option ℕ) : (submitRing s n).worker = s.worker := by
  cases n <;> rfl

/-- STEP: every step keeps the invariant. -/
theorem Inv.step (h : Inv s) (hs : step s a = some s') : Inv s' := by
  cases a with
  | syncIO f =>
    rw [IOUring.step] at hs
    split at hs
    · rename_i hw
      obtain ⟨hpc, hs⟩ := Option.ite_none_right_eq_some.mp hs
      obtain rfl := Option.some.inj hs
      exact h.call hw hpc
    · cases hs
  | getSqe =>
    rw [IOUring.step] at hs
    split at hs
    · rename_i e hw
      obtain rfl := Option.some.inj hs
      exact h.getSqe hw
    · cases hs
  | submit n =>
    obtain ⟨hn, hs⟩ := Option.ite_none_right_eq_some.mp hs
    obtain ⟨hinv, hlt⟩ := h.submitRing hn
    split at hs
    · rename_i hw
      obtain rfl := Option.some.inj hs
      rw [← submitRing_worker s n] at hw
      cases n with
      | none =>
        exact hinv.at (.inr fun _ => rfl) rfl (by rw [hw]; rfl) (by rw [hw]; rfl) (by rw [hw]; rfl)
      | some k =>
        exact hinv.at (.inl (hlt rfl)) rfl (by rw [hw]; rfl) (by rw [hw]; rfl) (by rw [hw]; rfl)
    · rename_i e hw
      have hfits := h.fits
      rw [hw] at hfits
      cases hfits
    · rename_i pt hw
      obtain rfl := Option.some.inj hs
      have hfits := h.fits
      rw [hw] at hfits
      rw [← submitRing_worker s n] at hw
      cases pt with
      | check e => cases hfits
      | poll | suspend | trying =>
        exact hinv.at (.inr (by rw [hw]; nofun)) rfl (by rw [hw]; rfl) (by rw [hw]; rfl) (by rw [hw]; rfl)
    · cases hs
  | waitCqe =>
    rw [IOUring.step] at hs
    split at hs
    · rename_i c cq hw hcq
      obtain rfl := Option.some.inj hs
      have hseen : s.worker.seen = 0 := by rw [hw]; rfl
      have hprocess := (h.processCQE
        (w := .peeking .suspend (IOUring.processCQE { s with cq := cq } 0 c).2) hcq (by rw [hw]; nofun) rfl
        (by rw [hw]; rfl) (by rw [hw]; rfl) (by rw [hseen]; rfl)).1
      rw [hseen] at hprocess
      exact hprocess
    · cases hs
  | peek =>
    rw [IOUring.step] at hs
    split at hs
    · rename_i pt resume hw
      obtain rfl := Option.some.inj hs
      have hfits := h.fits
      rw [hw] at hfits
      refine h.at (.inr fun hb => ?_) ?_ (by rw [hw]; rfl) (by rw [hw]; rfl) (by rw [hw]; rfl)
      · rw [hw] at hb
        cases pt with
        | check e => cases e <;> first | rfl | cases hb
        | _ => cases hb
      · cases pt with
        | check e => cases e <;> first | rfl | cases hfits
        | _ => rfl
    · cases hs
  | processCQE =>
    rw [IOUring.step] at hs
    split at hs
    · rename_i pt n resume c cq hw hcq
      obtain rfl := Option.some.inj hs
      have hseen : s.worker.seen = resume := by rw [hw]; rfl
      have hfits := h.fits
      rw [hw] at hfits
      have hprocess := (h.processCQE
        (w := .processing pt n (IOUring.processCQE { s with cq := cq } resume c).2) hcq (fun hb => ?_) ?_
        (by rw [hw]; rfl) (by rw [hw]; rfl) (by rw [hseen]; rfl)).1
      · rw [hseen] at hprocess
        exact hprocess
      · rw [hw] at hb
        cases pt with
        | check e => cases e <;> first | rfl | cases hb
        | _ => cases hb
      · cases pt with
        | check e => cases e <;> first | rfl | cases hfits
        | _ => rfl
    · cases hs
  | endPoll =>
    rw [IOUring.step] at hs
    split at hs
    · rename_i pt resume hw
      obtain rfl := Option.some.inj hs
      exact h.endPoll hw
    · cases hs
  | poll =>
    rw [IOUring.step] at hs
    split at hs
    · rename_i hw
      obtain rfl := Option.some.inj hs
      exact h.enter nofun (by rw [hw]; rfl) (by rw [hw]; rfl) (by rw [hw]; rfl) (by rw [hw]; rfl)
    · cases hs
  | block =>
    rw [IOUring.step] at hs
    split at hs
    · rename_i hw
      obtain rfl := Option.some.inj hs
      exact h.block hw
    · cases hs
  | trySuspend | suspend =>
    rw [IOUring.step] at hs
    split at hs
    · rename_i hw
      obtain rfl := Option.some.inj hs
      exact h.enter nofun (by rw [hw]; rfl) (by rw [hw]; rfl) (by rw [hw]; rfl) (by rw [hw]; rfl)
    · cases hs
  | resume =>
    obtain ⟨hl, hs⟩ := Option.ite_none_right_eq_some.mp hs
    obtain rfl := Option.some.inj hs
    exact h.resume hl
  | complete f res =>
    obtain ⟨hmem, hs⟩ := Option.ite_none_right_eq_some.mp hs
    obtain rfl := Option.some.inj hs
    exact h.complete hmem res
  | completeHalt =>
    obtain ⟨⟨hmem, hpos⟩, hs⟩ := Option.ite_none_right_eq_some.mp hs
    obtain rfl := Option.some.inj hs
    exact h.completeHalt hmem hpos
  | «return» f ret =>
    obtain ⟨hpc, hs⟩ := Option.ite_none_right_eq_some.mp hs
    obtain rfl := Option.some.inj hs
    exact h.return hpc

theorem inv_init : Inv (State.init : State F) where
  sqes := rfl
  room := .inl (Nat.le_of_ble_eq_true rfl)
  fits := rfl
  blocks _ := rfl
  halts := by
    show 0 + 0 + 0 + [Entry.halt].count Entry.halt + 0 = 1
    rw [List.count_singleton_self]
  token := rfl
  listed := nofun
  counted := nofun

end Libfibre.IOUring
