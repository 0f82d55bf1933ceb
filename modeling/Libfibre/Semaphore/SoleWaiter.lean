import Libfibre.Semaphore.LockedSemaphore

/-! A binary `LockedSemaphore` on which one fibre at most sleeps at a time, without a timeout: the
    semaphores of `fdSyncVector`. -/

namespace Libfibre.LockedSemaphore
open BlockingQueue

/-- The fibre sleeps in `P` or `wait`. -/
def State.asleep (s : State Unit) : Prop := s.pc () = .blocked false

/-- INVARIANT: the fibre has a node while it sleeps, and it sleeps only on a closed semaphore. -/
structure Sole (s : State Unit) : Prop where
  queues : Queues s
  untimed : s.pc () = .out ∨ s.asleep ∨ s.pc () = .granted
  closed : s.asleep → s.counter < 1

variable {s s' : State Unit}

theorem sole_start : Sole (start 0) := ⟨queues_start 0, .inl rfl, fun h => by cases h⟩

theorem State.asleep.waits (h : s.asleep) : (s.pc ()).waits = true := by
  rw [h]
  rfl

theorem State.asleep.ne_out (h : s.asleep) : s.pc () ≠ .out := by
  rw [h]
  nofun

theorem State.asleep.ne_granted (h : s.asleep) : s.pc () ≠ .granted := by
  rw [h]
  nofun

theorem Sole.setCounter (h : Sole s) (hawake : ¬ s.asleep) (n : ℤ) : Sole (s.setCounter n) :=
  ⟨h.queues.setCounter n, h.untimed, fun hs => absurd hs hawake⟩

/-- `P`: the fibre falls asleep, or takes the permit. -/
theorem Sole.internalP (h : Sole s) (hout : s.pc () = .out) :
    (s.counter < 1 ∧ ∃ sem, internalP s () (.wait true) = (sem, none) ∧ Sole sem ∧ sem.asleep ∧
      sem.counter = s.counter) ∨
    (1 ≤ s.counter ∧ internalP s () (.wait true) = (s.setCounter (s.counter - 1), some .wasOpen)) := by
  rcases internalP_cases s () (.wait true) with ⟨hc, -, hP⟩ | ⟨-, hb, -⟩ | ⟨hc, hP⟩
  · have hsleep : (s.join () false).asleep := by
      rw [State.asleep, join_pc, Function.update_self]
    exact .inl ⟨hc, s.join () false, hP,
      ⟨h.queues.joined hout false, .inr (.inl hsleep), fun _ => hc⟩, hsleep,
      join_counter s () false⟩
  · cases hb
  · exact .inr ⟨hc, hP⟩

/-- `V` wakes the fibre, or opens the semaphore. -/
theorem Sole.V (h : Sole s) :
    (s.asleep ∧ Sole (V true s).1 ∧ (V true s).1.pc () = .granted) ∨
    (¬ s.asleep ∧ (V true s).1 = s.setCounter 1) := by
  rcases V_cases true h.queues with ⟨next, sem, hV, hg⟩ | ⟨hV, hnone⟩
  · rw [hV]
    have hgranted : sem.pc () = .granted := by rw [hg.pc, Function.update_self]
    have hclosed : sem.asleep → sem.counter < 1 := fun hs => absurd hgranted hs.ne_granted
    refine .inl ⟨?_, ⟨hg.queues h.queues, .inr (.inr hgranted), hclosed⟩, hgranted⟩
    have hwaits := hg.waits
    rcases h.untimed with hout | hsleep | hgranted
    · rw [hout] at hwaits
      cases hwaits
    · exact hsleep
    · rw [hgranted] at hwaits
      cases hwaits
  · refine .inr ⟨fun hsleep => ?_, by rw [hV]; rfl⟩
    have hwaits := hnone ()
    rw [hsleep.waits] at hwaits
    cases hwaits

/-- The fibre returns from `P`. -/
theorem Sole.resumption (h : Sole s) (hs : resumption s () = some s') :
    s.pc () = .granted ∧ Sole s' ∧ s'.pc () = .out ∧ s'.counter = s.counter := by
  obtain ⟨hgranted, rfl⟩ := resumption_some hs
  have hout : (s.goto () .out).pc () = .out := by rw [goto_pc, Function.update_self]
  exact ⟨hgranted, ⟨h.queues.goto (by rw [hgranted]; rfl), .inl hout, fun hs => absurd hout hs.ne_out⟩, hout,
    goto_counter s () .out⟩

end Libfibre.LockedSemaphore
