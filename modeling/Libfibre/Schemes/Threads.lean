import Mathlib.Logic.Function.Basic

/-! Threads that take turns: `pc u` is where thread `u` is, and what matters of that is read off by
    functions of it (has it the lock? does it lead? what does it owe?). One thread moves,
    `Function.update pc t p`, and the others stay. -/

namespace Libfibre.Threads

variable {T C : Type} {pc : T → C} {t u : T} {p : C}

/-! ### A lock -/

section Lock
variable {locked : C → Bool} {lock lock' : Option T}

theorem locked_eq (h : ∀ u, locked (pc u) = true ↔ lock = some u) (ht : locked (pc t) = true)
    (hu : locked (pc u) = true) : u = t := by
  have hlock := (h u).mp hu
  rw [(h t).mp ht, Option.some.injEq] at hlock
  exact hlock.symm

/-- Nobody else is where only the holder of the lock may be. -/
theorem unlocked (h : ∀ u, locked (pc u) = true ↔ lock = some u) (ht : locked (pc t) = true)
    (hu : u ≠ t) : locked (pc u) = false := by
  by_contra hlocked
  exact hu (locked_eq h ht (by simpa using hlocked))

/-- The lock stays as it is. -/
theorem lock_same (h : ∀ u, locked (pc u) = true ↔ lock = some u) (hlock : lock' = lock)
    (hp : locked p = locked (pc t)) :
    (∀ u, u ≠ t → (lock' = some u ↔ lock = some u)) ∧ (locked p = true ↔ lock' = some t) := by
  rw [hlock, hp]
  exact ⟨fun u _ => Iff.rfl, h t⟩

/-- The lock is taken. -/
theorem lock_taken (hfree : lock = none) (hlock : lock' = some t) (hp : locked p = true) :
    (∀ u, u ≠ t → (lock' = some u ↔ lock = some u)) ∧ (locked p = true ↔ lock' = some t) := by
  rw [hlock, hfree]
  refine ⟨fun u hu => iff_of_false (fun htu => hu (Option.some.inj htu).symm) fun htu => ?_,
    iff_of_true hp rfl⟩
  cases htu

/-- The lock is released. -/
theorem lock_released (h : ∀ u, locked (pc u) = true ↔ lock = some u) (ht : locked (pc t) = true)
    (hlock : lock' = none) (hp : locked p = false) :
    (∀ u, u ≠ t → (lock' = some u ↔ lock = some u)) ∧ (locked p = true ↔ lock' = some t) := by
  rw [hlock, (h t).mp ht, hp]
  exact ⟨fun u hu => iff_of_false (fun htu => by cases htu) fun htu => hu (Option.some.inj htu).symm,
    iff_of_false Bool.false_ne_true fun htu => by cases htu⟩

theorem lock_move [DecidableEq T] (h : ∀ u, locked (pc u) = true ↔ lock = some u)
    (hlock : (∀ u, u ≠ t → (lock' = some u ↔ lock = some u)) ∧ (locked p = true ↔ lock' = some t)) :
    ∀ u, locked (Function.update pc t p u) = true ↔ lock' = some u :=
  (Function.forall_update_iff pc fun u q => locked q = true ↔ lock' = some u).mpr
    ⟨hlock.2, fun u hu => (h u).trans (hlock.1 u hu).symm⟩

end Lock

/-! ### A leader -/

section Leader
variable {leads : C → Bool}

/-- Nobody but the leader leads. -/
theorem follows (h : ∀ t u, leads (pc t) = true → leads (pc u) = true → t = u)
    (ht : leads (pc t) = true) (hu : u ≠ t) : leads (pc u) = false := by
  by_contra hlead
  exact hu (h u t (by simpa using hlead) ht)

variable [DecidableEq T]

/-- There is one leader at most if who moves into the lead is the only one. -/
theorem leader_move (h : ∀ t u, leads (pc t) = true → leads (pc u) = true → t = u)
    (hp : leads p = true → ∀ u, u ≠ t → leads (pc u) = false) :
    ∀ u v, leads (Function.update pc t p u) = true → leads (Function.update pc t p v) = true →
      u = v := by
  have hother : ∀ u, u ≠ t → leads (pc u) = true → leads p = false := by
    intro u hu hlead
    by_contra hnew
    rw [hp (by simpa using hnew) u hu] at hlead
    cases hlead
  intro u v hu hv
  rcases eq_or_ne u t with rfl | hut
  · rw [Function.update_self] at hu
    by_contra hne
    rw [Function.update_of_ne (Ne.symm hne), hp hu v (Ne.symm hne)] at hv
    cases hv
  · rw [Function.update_of_ne hut] at hu
    rcases eq_or_ne v t with rfl | hvt
    · rw [Function.update_self, hother u hut hu] at hv
      cases hv
    · rw [Function.update_of_ne hvt] at hv
      exact h u v hu hv

/-- Nobody leads once a thread has moved out of the lead. -/
theorem none_leads (hother : ∀ u, u ≠ t → leads (pc u) = false) (hp : leads p = false) :
    ∀ u, leads (Function.update pc t p u) = false :=
  (Function.forall_update_iff pc fun _ q => leads q = false).mpr ⟨hp, hother⟩

end Leader

/-! ### What a thread keeps as it moves -/

/-- A thread that is at `q` has moved there, or has stayed there. -/
theorem moved [DecidableEq T] {q : C} (h : Function.update pc t p u = q) :
    u = t ∧ p = q ∨ u ≠ t ∧ pc u = q := by
  rcases eq_or_ne u t with rfl | hu
  · rw [Function.update_self] at h
    exact .inl ⟨rfl, h⟩
  · rw [Function.update_of_ne hu] at h
    exact .inr ⟨hu, h⟩

/-- At a place where nobody moves to, it has stayed. -/
theorem stayed [DecidableEq T] {q : C} (h : Function.update pc t p u = q) (hp : p ≠ q) :
    u ≠ t ∧ pc u = q :=
  (moved h).resolve_left fun hmoved => hp hmoved.2

theorem same_at [DecidableEq T] {D : Type*} {f : C → D} (h : f p = f (pc t)) (u : T) :
    f (Function.update pc t p u) = f (pc u) := by
  rcases eq_or_ne u t with rfl | hu
  · rw [Function.update_self, h]
  · rw [Function.update_of_ne hu]

theorem kept [DecidableEq T] {D : Type} {f : C → D} (h : f p = f (pc t)) :
    Function.update (fun u => f (pc u)) t (f p) = fun u => f (pc u) := by
  rw [h]
  exact Function.update_eq_self t fun u => f (pc u)

/-- No thread comes to `q` or leaves it. -/
theorem at_iff [DecidableEq T] {q : C} (h : p = q ↔ pc t = q) (u : T) :
    Function.update pc t p u = q ↔ pc u = q :=
  iff_of_eq (same_at (f := fun r => r = q) (propext h) u)

end Libfibre.Threads
