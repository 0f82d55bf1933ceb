import Mathlib.Data.List.Nodup
import Mathlib.Data.List.Basic

/-! `BlockingQueue` (`BlockingSync.h`) as the primitives with an internal lock use it: a list of the
    fibres whose nodes are queued, longest-queued first, and for each fibre whether its resume race
    is still open. A node leaves by `unblock`, which skips the fibres whose timer has already won, or
    by the cancelling fibre itself. -/

namespace Libfibre.BlockingQueue

variable {F : Type}

/-- How a caller of `block` is prepared to wait: its `wait` flag, or a timeout together with what
    `timeout > Runtime::Timer::now()` says. -/
inductive Args where
  | wait (wait : Bool)
  | timeout (ahead : Bool)
  deriving DecidableEq

/-- `block` calls `blockInternal`; otherwise it releases the lock and returns `false`. -/
def Args.blocks : Args → Bool
  | .wait w => w
  | .timeout later => later

/-- `blockInternal` goes through the timer queue. -/
def Args.timed : Args → Bool
  | .wait _ => false
  | .timeout _ => true

/-- `unblock`: the first queued fibre whose race is won by the queue, and the queue without it. -/
def unblock (isOpen : F → Bool) : List F → Option F × List F
  | [] => (none, [])
  | f :: q => if isOpen f then (some f, q) else ((unblock isOpen q).1, f :: (unblock isOpen q).2)

/-- `unblock` returns the longest-queued fibre whose race is open. -/
theorem unblock_some {isOpen : F → Bool} {f : F} :
    ∀ {q q' : List F}, unblock isOpen q = (some f, q') → ∃ front back,
      q = front ++ f :: back ∧ q' = front ++ back ∧ isOpen f = true ∧ ∀ g ∈ front, isOpen g = false
  | [], _, h => by simp [unblock] at h
  | g :: q, q', h => by
    by_cases hg : isOpen g = true
    · simp only [unblock, hg, if_true, Prod.mk.injEq, Option.some.injEq] at h
      obtain ⟨rfl, rfl⟩ := h
      exact ⟨[], q, rfl, rfl, hg, by simp⟩
    · simp only [unblock, hg, Bool.false_eq_true, if_false, Prod.mk.injEq] at h
      obtain ⟨hf, rfl⟩ := h
      obtain ⟨front, back, hq, hrest, hopen, hfront⟩ :=
        unblock_some (show unblock isOpen q = (some f, (unblock isOpen q).2) from Prod.ext hf rfl)
      refine ⟨g :: front, back, by rw [hq]; rfl, by rw [hrest]; rfl, hopen, ?_⟩
      intro x hx
      rcases List.mem_cons.mp hx with rfl | hx
      · exact Bool.not_eq_true _ ▸ hg
      · exact hfront x hx

/-- `unblock` returns `nullptr` only if no queued fibre's race is open, and leaves the queue. -/
theorem unblock_none {isOpen : F → Bool} :
    ∀ {q q' : List F}, unblock isOpen q = (none, q') → q' = q ∧ ∀ f ∈ q, isOpen f = false
  | [], _, h => by simp only [unblock, Prod.mk.injEq, true_and] at h; exact ⟨h.symm, by simp⟩
  | g :: q, q', h => by
    by_cases hg : isOpen g = true
    · simp [unblock, hg] at h
    · simp only [unblock, hg, Bool.false_eq_true, if_false, Prod.mk.injEq] at h
      obtain ⟨hnone, rfl⟩ := h
      have hpair : unblock isOpen q = (none, (unblock isOpen q).2) := Prod.ext hnone rfl
      obtain ⟨hq, hall⟩ := unblock_none hpair
      refine ⟨by rw [hq], fun f hf => ?_⟩
      rcases List.mem_cons.mp hf with rfl | hf
      · exact Bool.not_eq_true _ ▸ hg
      · exact hall f hf

/-- `unblock` passes over the nodes whose race is lost. -/
theorem unblock_closed {isOpen : F → Bool} {front : List F} (h : ∀ f ∈ front, isOpen f = false)
    (q : List F) : unblock isOpen (front ++ q)
      = ((unblock isOpen q).1, front ++ (unblock isOpen q).2) := by
  induction front with
  | nil => rfl
  | cons f front ih =>
    rw [List.forall_mem_cons] at h
    rw [List.cons_append, unblock, h.1, if_neg Bool.false_ne_true, ih h.2]
    rfl

/-- Of the fibres whose race is open, `unblock` takes the first. -/
theorem filter_unblock {isOpen : F → Bool} {f : F} {q q' : List F}
    (h : unblock isOpen q = (some f, q')) : q.filter isOpen = f :: q'.filter isOpen := by
  obtain ⟨front, back, rfl, rfl, hopen, hfront⟩ := unblock_some h
  have hnil : front.filter isOpen = [] := by
    rw [List.filter_eq_nil_iff]
    intro g hg
    rw [hfront g hg]
    exact Bool.false_ne_true
  rw [List.filter_append, List.filter_append, hnil, List.filter_cons_of_pos hopen]
  rfl

/-- In a queue with one node per fibre, `unblock` takes out exactly the fibre it returns. -/
theorem mem_unblock_some {isOpen : F → Bool} {f : F} {q q' : List F} (hq : q.Nodup)
    (h : unblock isOpen q = (some f, q')) :
    f ∈ q ∧ isOpen f = true ∧ q'.Nodup ∧ ∀ g, g ∈ q' ↔ g ∈ q ∧ g ≠ f := by
  obtain ⟨front, back, rfl, rfl, hopen, -⟩ := unblock_some h
  rw [List.nodup_middle, List.nodup_cons] at hq
  refine ⟨by simp, hopen, hq.2, fun g => ?_⟩
  constructor
  · intro hg
    exact ⟨by simp only [List.mem_append, List.mem_cons] at hg ⊢; tauto,
      fun h => hq.1 (h ▸ hg)⟩
  · rintro ⟨hg, hne⟩
    simp only [List.mem_append, List.mem_cons] at hg ⊢
    tauto

/-- `push_back` of the node of a fibre that has none. -/
theorem nodup_pushBack {f : F} {q : List F} (hq : q.Nodup) (hf : f ∉ q) : (q ++ [f]).Nodup := by
  rw [← List.concat_eq_append]
  exact hq.concat hf

/-- The two outcomes of `unblock` on a queue that holds every fibre with an open race. -/
theorem unblock_cases {isOpen : F → Bool} {q : List F} (hq : q.Nodup)
    (hall : ∀ f, isOpen f = true → f ∈ q) :
    (∃ next q', unblock isOpen q = (some next, q') ∧ isOpen next = true ∧ q'.Nodup ∧
      ∀ f, f ∈ q' ↔ f ∈ q ∧ f ≠ next) ∨
    (unblock isOpen q = (none, q) ∧ ∀ f, isOpen f = false) := by
  rcases h : unblock isOpen q with ⟨next, q'⟩
  cases next with
  | some next =>
    obtain ⟨-, hopen, hnd, hmem⟩ := mem_unblock_some hq h
    exact Or.inl ⟨next, q', rfl, hopen, hnd, hmem⟩
  | none =>
    obtain ⟨rfl, hnone⟩ := unblock_none h
    refine Or.inr ⟨rfl, fun f => ?_⟩
    by_contra hf
    rw [Bool.not_eq_false] at hf
    rw [hnone f (hall f hf)] at hf
    cases hf

end Libfibre.BlockingQueue
