import Libfibre.Semaphore.LockedSemaphore

/-! Event dispatch (`Poller.cc`): `notifyOne` maps one event of `epoll_wait` to a `V` on one of the two
    semaphores of its descriptor, `notifyAll` does so for a batch. The direction is read off the event
    mask alone, and the test for input comes first and takes `EPOLLHUP` and `EPOLLERR` for itself.

        mask ∩ {IN, PRI, RDHUP, HUP, ERR} ≠ ∅ ──▶ V on sync[Input]
        else mask ∩ {OUT, ERR} ≠ ∅            ──▶ V on sync[Output]

    Linux adds `EPOLLERR` and `EPOLLHUP` to the events of every registered descriptor: those of a
    descriptor registered for output wake the wrong direction (`dispatched_iff`). -/

namespace Libfibre.EventScope
open LockedSemaphore BlockingQueue

/-! ### Events -/

/-- The bits of `epoll_event::events`. -/
def EPOLLIN : BitVec 32 := 0x001
def EPOLLPRI : BitVec 32 := 0x002
def EPOLLOUT : BitVec 32 := 0x004
def EPOLLERR : BitVec 32 := 0x008
def EPOLLHUP : BitVec 32 := 0x010
def EPOLLRDHUP : BitVec 32 := 0x2000

/-- `Poller::Direction`. -/
inductive Direction where
  | input
  | output
  deriving DecidableEq

/-- The event bits that a registration for the direction asks for. -/
def Direction.bits : Direction → BitVec 32
  | .input => EPOLLIN ||| EPOLLPRI ||| EPOLLRDHUP
  | .output => EPOLLOUT

/-- The other direction of a descriptor. -/
def Direction.other : Direction → Direction
  | .input => .output
  | .output => .input

/-- `epoll_event`: the descriptor and the bits that are set. -/
structure Event where
  fd : ℕ
  events : BitVec 32
  deriving DecidableEq

/-- The event says that the descriptor is ready for `d`, or has failed. -/
def Event.concerns (ev : Event) (d : Direction) : Bool :=
  ev.events &&& (d.bits ||| EPOLLERR ||| EPOLLHUP) != 0#32

/-- The two tests of `notifyOne`. -/
def Event.inputTest (ev : Event) : Bool :=
  ev.events &&& (EPOLLIN ||| EPOLLPRI ||| EPOLLRDHUP ||| EPOLLHUP ||| EPOLLERR) != 0#32

/-- The second test of `notifyOne`. -/
def Event.outputTest (ev : Event) : Bool := ev.events &&& (EPOLLOUT ||| EPOLLERR) != 0#32

/-- The semaphore that `notifyOne` does its `V` on. -/
def notifyOne (ev : Event) : Option (ℕ × Direction) :=
  if ev.inputTest then some (ev.fd, .input)
  else if ev.outputTest then some (ev.fd, .output)
  else none

theorem inputTest_eq (ev : Event) : ev.inputTest = ev.concerns .input := by
  rw [Event.inputTest, Event.concerns, Direction.bits]
  congr 2

/-- A mask that meets no bit of `a` meets none of a part of `a`. -/
theorem and_zero_of_part {m a b : BitVec 32} (h : m &&& a = 0#32) (hpart : a &&& b = b) :
    m &&& b = 0#32 := by
  rw [← hpart, ← BitVec.and_assoc, h, BitVec.zero_and]

/-- An event of a descriptor that has failed is no event for output alone. -/
theorem notifyOne_output {ev : Event} (h : notifyOne ev = some (ev.fd, .output)) :
    ev.inputTest = false ∧ ev.concerns .output = true := by
  rw [notifyOne] at h
  split at h
  · cases h
  case isFalse hin =>
    split at h
    case isFalse => cases h
    case isTrue hout =>
      refine ⟨Bool.not_eq_true _ ▸ hin, ?_⟩
      rw [Event.outputTest, bne_iff_ne] at hout
      rw [Event.concerns, bne_iff_ne]
      intro hzero
      exact hout (and_zero_of_part hzero (by decide))

theorem notifyOne_of_output {ev : Event} (hin : ev.inputTest = false)
    (h : ev.concerns .output = true) : notifyOne ev = some (ev.fd, .output) := by
  have hhup : ev.events &&& EPOLLHUP = 0#32 := by
    rw [Event.inputTest, bne_eq_false_iff_eq] at hin
    exact and_zero_of_part hin (by decide)
  have hout : ev.outputTest = true := by
    rw [Event.concerns, bne_iff_ne] at h
    rw [Event.outputTest, bne_iff_ne]
    intro hzero
    refine h ?_
    rw [Direction.bits, BitVec.and_or_distrib_left, hzero, hhup, BitVec.or_zero]
  rw [notifyOne, hin, hout]
  rfl

theorem notifyOne_input {ev : Event} :
    notifyOne ev = some (ev.fd, .input) ↔ ev.concerns .input = true := by
  rw [← inputTest_eq, notifyOne]
  cases ev.inputTest with
  | true => simp
  | false =>
    cases ev.outputTest with
    | true => simp
    | false => simp

/-- An event goes to direction `d` if it concerns `d` and, for output, is not taken for input. -/
theorem notifyOne_iff (ev : Event) (d : Direction) : notifyOne ev = some (ev.fd, d) ↔
    ev.concerns d = true ∧ (d = .output → ev.inputTest = false) := by
  cases d with
  | input =>
    rw [notifyOne_input]
    exact ⟨fun h => ⟨h, nofun⟩, fun h => h.1⟩
  | output =>
    constructor
    · intro h
      obtain ⟨hin, hout⟩ := notifyOne_output h
      exact ⟨hout, fun _ => hin⟩
    · rintro ⟨hout, hin⟩
      exact notifyOne_of_output (hin rfl) hout

theorem notifyOne_fd {ev : Event} {fd : ℕ} {d : Direction} (h : notifyOne ev = some (fd, d)) :
    fd = ev.fd := by
  rw [notifyOne] at h
  split at h
  · exact (Prod.mk.inj (Option.some.inj h)).1.symm
  · split at h
    · exact (Prod.mk.inj (Option.some.inj h)).1.symm
    · cases h

/-! ### The semaphores of the descriptors -/

variable {F : Type} [DecidableEq F]

/-- `SyncSem`, a binary semaphore that only untimed calls of `P` wait on. -/
structure SyncSem (F : Type) where
  sem : LockedSemaphore.State F
  queues : Queues sem
  untimed : ∀ f ∈ sem.bq, (sem.pc f).waits = true

/-- The fibres asleep in `P`, longest-waiting first. -/
def SyncSem.blocked (s : SyncSem F) : List F := s.sem.bq

omit [DecidableEq F] in
/-- A fresh semaphore. -/
def SyncSem.fresh : SyncSem F := ⟨start 0, queues_start 0, by simp [start]⟩

theorem V_spec (s : SyncSem F) : (V true s.sem).1.bq = s.blocked.tail ∧
    ∀ f ∈ s.blocked.tail, ((V true s.sem).1.pc f).waits = true := by
  cases hbq : s.sem.bq with
  | nil =>
    have hV : V true s.sem = (s.sem.setCounter 1, none) := by
      rw [V, tryV, hbq]; rfl
    rw [SyncSem.blocked, hV, hbq]
    exact ⟨hbq, by simp⟩
  | cons f q =>
    have hf : (s.sem.pc f).waits = true := s.untimed f (by rw [hbq]; exact List.mem_cons_self ..)
    have hV : V true s.sem = ({ s.sem.goto f .granted with bq := q }, some f) := by
      rw [V, tryV, hbq, unblock, if_pos hf]
    rw [SyncSem.blocked, hV, hbq]
    refine ⟨rfl, ?_⟩
    intro g hg
    have hne : g ≠ f := by
      rintro rfl
      have hnodup := s.queues.nodup
      rw [hbq] at hnodup
      exact (List.nodup_cons.mp hnodup).1 hg
    show ((Function.update s.sem.pc f Pc.granted g).waits) = true
    rw [Function.update_of_ne hne]
    exact s.untimed g (by rw [hbq]; exact List.mem_cons_of_mem _ hg)

theorem V_queues {s : LockedSemaphore.State F} (hq : Queues s) : Queues (V true s).1 := by
  rcases V_cases true hq with ⟨next, s', h, hg⟩ | ⟨h, _⟩
  · rw [h]; exact hg.queues hq
  · rw [h]; exact hq.setCounter _

/-- `V` of the binary semaphore, which keeps its invariant. -/
def SyncSem.V (s : SyncSem F) : SyncSem F where
  sem := (LockedSemaphore.V true s.sem).1
  queues := V_queues s.queues
  untimed := by
    intro f hf
    rw [(V_spec s).1] at hf
    exact (V_spec s).2 f hf

/-- A `V` wakes the longest-waiting fibre. -/
@[simp] theorem blocked_V (s : SyncSem F) : s.V.blocked = s.blocked.tail := (V_spec s).1

/-- `fdSyncVector`: the two semaphores of each descriptor. -/
abbrev Table (F : Type) := ℕ → Direction → SyncSem F

/-- `EventScope::unblock`. -/
def unblockFD (t : Table F) (fd : ℕ) (d : Direction) : Table F :=
  Function.update t fd (Function.update (t fd) d (t fd d).V)

/-- `notifyAll`: the events of the batch in turn. -/
def notifyAll (evs : List Event) (t : Table F) : Table F :=
  evs.foldl (fun t ev => match notifyOne ev with
    | some (fd, d) => unblockFD t fd d
    | none => t) t

theorem blocked_unblockFD (t : Table F) (fd fd' : ℕ) (d d' : Direction) :
    (unblockFD t fd d fd' d').blocked =
      if fd = fd' ∧ d = d' then (t fd' d').blocked.tail else (t fd' d').blocked := by
  rw [unblockFD]
  by_cases hfd : fd' = fd
  · subst hfd
    rw [Function.update_self]
    by_cases hd : d' = d
    · subst hd; simp
    · rw [Function.update_of_ne hd]; simp [Ne.symm hd]
  · rw [Function.update_of_ne hfd]; simp [Ne.symm hfd]

/-- RUN: a batch wakes as many fibres of a semaphore as it has events that go there. -/
theorem blocked_notifyAll (fd : ℕ) (d : Direction) : ∀ (evs : List Event) (t : Table F),
    (notifyAll evs t fd d).blocked =
      (t fd d).blocked.drop (evs.countP fun ev => decide (notifyOne ev = some (fd, d))) := by
  intro evs
  induction evs with
  | nil => intro t; rfl
  | cons ev evs ih =>
    intro t
    rw [notifyAll, List.foldl_cons, ← notifyAll, ih, List.countP_cons]
    cases hone : notifyOne ev with
    | none => simp
    | some p =>
      obtain ⟨fd', d'⟩ := p
      simp only [blocked_unblockFD]
      by_cases hhere : fd' = fd ∧ d' = d
      · obtain ⟨rfl, rfl⟩ := hhere
        simp [List.drop_tail]
      · simp [hhere]

/-! ### The direction that was registered -/

/-- The direction each descriptor is registered for with one poller. -/
abbrev Registered := ℕ → Option Direction

/-- `Poller::Operation`. -/
inductive Operation where
  | create
  | modify
  | remove
  deriving DecidableEq

/-- `setupFD`, as what the kernel has registered for the descriptor. -/
def setupFD (reg : Registered) (fd : ℕ) (op : Operation) (d : Direction) : Registered :=
  Function.update reg fd (if op = .remove then none else some d)

/-- Every event that concerns the direction its descriptor is registered for causes a `V` there, and
    after the batch no fibre is left asleep that slept there before. -/
def Dispatched (reg : Registered) (evs : List Event) (t : Table F) : Prop :=
  ∀ ev ∈ evs, ∀ d, reg ev.fd = some d → ev.concerns d = true →
    notifyOne ev = some (ev.fd, d) ∧
      ∀ f ∈ (t ev.fd d).blocked, f ∉ (notifyAll evs t ev.fd d).blocked

/-- No event for output passes the test for input, and no more fibres sleep than the batch has events
    for them. -/
def Clean (reg : Registered) (evs : List Event) (t : Table F) : Prop :=
  ∀ ev ∈ evs, ∀ d, reg ev.fd = some d → ev.concerns d = true →
    (d = .output → ev.inputTest = false) ∧
      (t ev.fd d).blocked.length ≤ evs.countP fun ev' => decide (ev'.fd = ev.fd) && ev'.concerns d

omit [DecidableEq F] in
/-- Nobody is left of a list of which only the first `n` have gone exactly if there were `n`. -/
theorem none_left {l : List F} {n : ℕ} : (∀ f ∈ l, f ∉ l.drop n) ↔ l.length ≤ n := by
  constructor
  · intro h
    by_contra hlt
    have hhere : l[n] ∈ l.drop n := List.mem_drop_iff_getElem.mpr ⟨0, by omega, rfl⟩
    exact h _ (List.getElem_mem _) hhere
  · intro h f _ hf
    rw [List.drop_eq_nil_of_le h] at hf
    cases hf

/-- CORRECT: a batch wakes the directions that were registered exactly if it is clean. -/
theorem dispatched_iff (reg : Registered) (evs : List Event) (t : Table F) :
    Dispatched reg evs t ↔ Clean reg evs t := by
  constructor
  · intro h ev hev d hreg hcon
    obtain ⟨hone, hwoken⟩ := h ev hev d hreg hcon
    refine ⟨((notifyOne_iff ev d).mp hone).2, ?_⟩
    rw [blocked_notifyAll, none_left] at hwoken
    refine hwoken.trans (List.countP_mono_left fun ev' _ h' => ?_)
    have hfd := notifyOne_fd (of_decide_eq_true h')
    have hd : notifyOne ev' = some (ev'.fd, d) := by rw [← hfd]; exact of_decide_eq_true h'
    rw [Bool.and_eq_true, decide_eq_true_iff]
    exact ⟨hfd.symm, ((notifyOne_iff ev' d).mp hd).1⟩
  · intro h ev hev d hreg hcon
    obtain ⟨hin, hlen⟩ := h ev hev d hreg hcon
    refine ⟨(notifyOne_iff ev d).mpr ⟨hcon, hin⟩, ?_⟩
    rw [blocked_notifyAll, none_left]
    refine hlen.trans (List.countP_mono_left fun ev' hev' h' => ?_)
    obtain ⟨hfd, hcon'⟩ := Bool.and_eq_true_iff.mp h'
    have hfd : ev'.fd = ev.fd := of_decide_eq_true hfd
    have hin' := (h ev' hev' d (hfd ▸ hreg) hcon').1
    rw [decide_eq_true_iff, ← hfd]
    exact (notifyOne_iff ev' d).mpr ⟨hcon', hin'⟩

/-- A fibre in `checkAsyncCompletion` of descriptor 5: registered for output, then asleep in `P`. -/
def connecting : Table Unit := fun fd d =>
  if fd = 5 ∧ d = .output then ⟨(internalP (start 0) () (.wait true)).1,
    (queues_start 0).joined rfl false, by decide⟩
  else SyncSem.fresh

/-- WRONG: the connection is refused, and the fibre sleeps on. -/
theorem refused_connection_lost :
    ¬ Dispatched (setupFD (fun _ => none) 5 .create .output)
      [⟨5, EPOLLOUT ||| EPOLLERR ||| EPOLLHUP⟩] connecting ∧
    () ∈ (notifyAll [⟨5, EPOLLOUT ||| EPOLLERR ||| EPOLLHUP⟩] connecting 5 .output).blocked := by
  constructor
  · intro h
    have hone := (h ⟨5, EPOLLOUT ||| EPOLLERR ||| EPOLLHUP⟩ (List.mem_singleton.mpr rfl) .output rfl
      (by decide)).1
    exact absurd hone (by decide)
  · decide

end Libfibre.EventScope
