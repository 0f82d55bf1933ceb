import Libfibre.Runtime.Bitmap
import Libfibre.Schemes.Transition
import Mathlib.Data.List.Induction

/-! `FibreSpecific` (`Fibre.h`): keys are indices of one shared bitmap, each fibre keeps its values
    in a vector of its own, and destructors and values grow by doubling on demand.

        key_create ──▶ k allocated ──▶ setspecific f k v ──▶ key_delete ──▶ k free
             ▲                                                                │
             └────────────────── k may be returned again ◀────────────────────┘

    Neither `key_create` nor `key_delete` touches the vectors of values. So `getspecific` reads what
    the fibre stored last under the index, under whichever key of that index it was (`run_slot`),
    and that is the value of the current key if and only if the fibre has set it since, or the stale
    value is a null pointer (`pthread_keys_iff`). -/

namespace Libfibre.FibreSpecific
open Transition Bitmap

variable {α : Type}

/-! ### Vectors of pointers -/

/-- `std::vector::resize`: new elements are null pointers. -/
def resize (v : List (Option α)) (n : ℕ) : List (Option α) :=
  v.take n ++ List.replicate (n - v.length) none

/-- `while (idx >= size()) resize(size() * 2)`, for that many rounds. -/
def doubled (idx : ℕ) : ℕ → List (Option α) → List (Option α)
  | 0, v => v
  | fuel + 1, v => if v.length ≤ idx then doubled idx fuel (resize v (v.length * 2)) else v

/-- The vector, grown until it has an element `idx`. -/
def grown (v : List (Option α)) (idx : ℕ) : List (Option α) :=
  if v.length ≤ idx then doubled idx (idx + 1) (if v.length = 0 then resize v 1 else v) else v

/-- The pointer at `k`, null beyond the end. -/
def slot (v : List (Option α)) (k : ℕ) : Option α := v[k]?.join

@[simp] theorem length_resize (v : List (Option α)) (n : ℕ) : (resize v n).length = n := by
  rw [resize, List.length_append, List.length_take, List.length_replicate]
  omega

theorem slot_resize {v : List (Option α)} {n : ℕ} (h : v.length ≤ n) (k : ℕ) :
    slot (resize v n) k = slot v k := by
  rw [slot, slot, resize, List.take_of_length_le h]
  by_cases hk : k < v.length
  · rw [List.getElem?_append_left hk]
  · rw [List.getElem?_append_right (by omega), List.getElem?_replicate,
      List.getElem?_eq_none (by omega)]
    split <;> rfl

theorem slot_doubled (idx k : ℕ) : ∀ (fuel : ℕ) (v : List (Option α)),
    slot (doubled idx fuel v) k = slot v k := by
  intro fuel
  induction fuel with
  | zero => intro v; rfl
  | succ fuel ih =>
    intro v
    rw [doubled]
    split
    · rw [ih, slot_resize (by omega)]
    · rfl

theorem lt_length_doubled {idx : ℕ} : ∀ (fuel : ℕ) (v : List (Option α)),
    1 ≤ v.length → idx < v.length + fuel → idx < (doubled idx fuel v).length := by
  intro fuel
  induction fuel with
  | zero => intro v _ hlt; exact hlt
  | succ fuel ih =>
    intro v hpos hlt
    rw [doubled]
    split
    · refine ih _ ?_ ?_ <;> rw [length_resize] <;> omega
    · omega

/-- Growing changes no pointer. -/
@[simp] theorem slot_grown (v : List (Option α)) (idx k : ℕ) : slot (grown v idx) k = slot v k := by
  rw [grown]
  split
  · rw [slot_doubled]
    split
    · exact slot_resize (by omega) k
    · rfl
  · rfl

/-- The rounds given suffice. -/
theorem lt_length_grown (v : List (Option α)) (idx : ℕ) : idx < (grown v idx).length := by
  rw [grown]
  split
  · have hpos : 1 ≤ (if v.length = 0 then resize v 1 else v).length := by
      split
      · exact Nat.le_of_eq (length_resize v 1).symm
      · omega
    exact lt_length_doubled _ _ hpos (by omega)
  · omega

theorem le_length_grown (v : List (Option α)) (idx : ℕ) : v.length ≤ (grown v idx).length := by
  by_cases h : v.length ≤ idx
  · exact Nat.le_of_lt (Nat.lt_of_le_of_lt h (lt_length_grown v idx))
  · exact Nat.le_of_eq (by rw [grown, if_neg h])

theorem slot_set {v : List (Option α)} {idx : ℕ} (h : idx < v.length) (x : Option α) (k : ℕ) :
    slot (v.set idx x) k = if k = idx then x else slot v k := by
  rw [slot, slot, List.getElem?_set]
  by_cases hk : k = idx
  · subst hk; simp [h]
  · rw [if_neg (fun he => hk he.symm), if_neg hk]

/-! ### The calls -/

variable {F D V : Type} [DecidableEq F]

/-- The static members `bitmap` and `destructors`, and each fibre's `values`. -/
structure State (F D V : Type) where
  bitmap : Mword
  destructors : List (Option D)
  values : F → List (Option V)

def State.init : State F D V := ⟨0#64, [], fun _ => []⟩

/-- `RASSERT`, in a build with and in one without `TESTING_ENABLE_ASSERTIONS`. -/
def rassert (testing expr : Bool) : Bool := !testing || expr

/-- `key_create`; without an index left it fails its assertion. -/
def key_create (s : State F D V) (d : Option D) : Option (ℕ × State F D V) :=
  let idx := Bitmap.find s.bitmap false
  if idx < 64 then
    some (idx, { s with
      bitmap := Bitmap.set s.bitmap idx
      destructors := (grown s.destructors idx).set idx d })
  else none

/-- `key_delete`; `destructors[idx]` has to exist. -/
def key_delete (testing : Bool) (s : State F D V) (idx : ℕ) : Option (State F D V) :=
  if idx < 64 ∧ rassert testing (Bitmap.test s.bitmap idx) ∧ idx < s.destructors.length then
    some { s with
      bitmap := Bitmap.clr s.bitmap idx
      destructors := s.destructors.set idx none }
  else none

def setspecific (testing : Bool) (s : State F D V) (f : F) (idx : ℕ) (value : Option V) :
    Option (State F D V) :=
  if idx < 64 ∧ rassert testing (Bitmap.test s.bitmap idx) then
    some { s with
      values := Function.update s.values f ((grown (s.values f) idx).set idx value) }
  else none

def getspecific (testing : Bool) (s : State F D V) (f : F) (idx : ℕ) : Option (Option V) :=
  if idx < 64 ∧ rassert testing (Bitmap.test s.bitmap idx) then
    some (if idx < (s.values f).length then slot (s.values f) idx else none)
  else none

/-- A call, and what it returned. -/
inductive Call (F D V : Type) where
  | keyCreate (d : Option D) (idx : ℕ)
  | keyDelete (idx : ℕ)
  | setspecific (f : F) (idx : ℕ) (value : Option V)
  | getspecific (f : F) (idx : ℕ) (value : Option V)

section
variable [DecidableEq V]

def step (testing : Bool) (s : State F D V) : Call F D V → Option (State F D V)
  | .keyCreate d idx =>
    (key_create s d).bind fun r => if r.1 = idx then some r.2 else none
  | .keyDelete idx => key_delete testing s idx
  | .setspecific f idx value => setspecific testing s f idx value
  | .getspecific f idx value => if getspecific testing s f idx = some value then some s else none

def system (F D V : Type) [DecidableEq F] [DecidableEq V] (testing : Bool) :
    System (State F D V) (Call F D V) where
  init s := s = State.init
  step := step testing

/-- What each call can do to the state. -/
theorem step_cases {testing : Bool} {s s' : State F D V} {c : Call F D V}
    (h : step testing s c = some s') :
    (∃ d, c = .keyCreate d (Bitmap.find s.bitmap false) ∧ Bitmap.find s.bitmap false < 64 ∧
      s' = { s with
        bitmap := Bitmap.set s.bitmap (Bitmap.find s.bitmap false)
        destructors := (grown s.destructors (Bitmap.find s.bitmap false)).set
          (Bitmap.find s.bitmap false) d }) ∨
    (∃ idx, c = .keyDelete idx ∧ idx < s.destructors.length ∧
      s' = { s with
        bitmap := Bitmap.clr s.bitmap idx
        destructors := s.destructors.set idx none }) ∨
    (∃ f idx value, c = .setspecific f idx value ∧
      s' = { s with
        values := Function.update s.values f ((grown (s.values f) idx).set idx value) }) ∨
    (∃ f idx value, c = .getspecific f idx value ∧ s' = s) := by
  cases c with
  | keyCreate d idx =>
    obtain ⟨⟨k, t⟩, hk, hr⟩ := Option.bind_eq_some_iff.mp h
    obtain ⟨hlt, hkt⟩ := Option.ite_none_right_eq_some.mp hk
    obtain ⟨hidx, ht⟩ := Option.ite_none_right_eq_some.mp hr
    obtain ⟨rfl, rfl⟩ := Prod.mk.inj (Option.some.inj hkt)
    exact .inl ⟨d, by rw [← hidx], hlt, (Option.some.inj ht).symm⟩
  | keyDelete idx =>
    obtain ⟨⟨_, _, hlt⟩, hs⟩ := Option.ite_none_right_eq_some.mp h
    exact .inr (.inl ⟨idx, rfl, hlt, (Option.some.inj hs).symm⟩)
  | setspecific f idx value =>
    obtain ⟨_, hs⟩ := Option.ite_none_right_eq_some.mp h
    exact .inr (.inr (.inl ⟨f, idx, value, rfl, (Option.some.inj hs).symm⟩))
  | getspecific f idx value =>
    obtain ⟨_, hs⟩ := Option.ite_none_right_eq_some.mp h
    exact .inr (.inr (.inr ⟨f, idx, value, rfl, (Option.some.inj hs).symm⟩))

end

/-! ### Histories -/

/-- Index `k` belongs to a key created and not deleted since. -/
def allocated (as : List (Call F D V)) (k : ℕ) : Bool :=
  as.foldl (fun b c => match c with
    | .keyCreate _ idx => if idx = k then true else b
    | .keyDelete idx => if idx = k then false else b
    | _ => b) false

/-- The value of key `k` in fibre `f`: what `f` set last since the last `key_create` of `k`, null if
    nothing. -/
def specific (as : List (Call F D V)) (f : F) (k : ℕ) : Option V :=
  as.foldl (fun x c => match c with
    | .keyCreate _ idx => if idx = k then none else x
    | .setspecific g idx value => if g = f ∧ idx = k then value else x
    | _ => x) none

/-- What `f` stored last under index `k`, whichever key that was. -/
def stored (as : List (Call F D V)) (f : F) (k : ℕ) : Option V :=
  as.foldl (fun x c => match c with
    | .setspecific g idx value => if g = f ∧ idx = k then value else x
    | _ => x) none

/-- `f` has set key `k` since the last `key_create` of `k`. -/
def setSince (as : List (Call F D V)) (f : F) (k : ℕ) : Bool :=
  as.foldl (fun b c => match c with
    | .keyCreate _ idx => if idx = k then false else b
    | .setspecific g idx _ => if g = f ∧ idx = k then true else b
    | _ => b) false

/-- A key set since its creation has the value stored last; one not set since has none. -/
theorem specific_eq (as : List (Call F D V)) (f : F) (k : ℕ) :
    specific as f k = if setSince as f k then stored as f k else none := by
  induction as using List.reverseRecOn with
  | nil => rfl
  | append_singleton as c ih =>
    rw [specific, setSince, stored, List.foldl_append, List.foldl_append, List.foldl_append]
    rw [specific, setSince, stored] at ih
    cases c with
    | keyCreate d idx =>
      by_cases h : idx = k
      · simp [h]
      · simpa [h] using ih
    | keyDelete idx => simpa using ih
    | setspecific g idx value =>
      by_cases h : g = f ∧ idx = k
      · simp [h]
      · simpa [h] using ih
    | getspecific g idx value => simpa using ih

/-! ### The state is what the history says -/

section
variable [DecidableEq V]

/-- RUN: the bitmap is the set of allocated keys. -/
theorem run_test {testing : Bool} {as : List (Call F D V)} {s : State F D V}
    (h : Run (system F D V testing) Free as s) (k : ℕ) :
    Bitmap.test s.bitmap k = allocated as k := by
  induction h with
  | start h0 => rw [show _ = State.init from h0]; exact Bitmap.test_zero k
  | @step as s s' c _ _ hs ih =>
    rw [allocated, List.foldl_append]
    rw [allocated] at ih
    obtain ⟨d, rfl, hlt, rfl⟩ | ⟨idx, rfl, _, rfl⟩ | ⟨f, idx, value, rfl, rfl⟩
      | ⟨f, idx, value, rfl, rfl⟩ := step_cases hs
    · rw [Bitmap.test_set hlt, ih]
      by_cases hk : k = Bitmap.find s.bitmap false
      · simp [← hk]
      · simp [hk, Ne.symm hk]
    · rw [Bitmap.test_clr, ih]
      by_cases hk : k = idx
      · simp [hk]
      · simp [hk, Ne.symm hk]
    · exact ih
    · exact ih

/-- RUN: a fibre's vector holds what it stored last under each index. -/
theorem run_slot {testing : Bool} {as : List (Call F D V)} {s : State F D V}
    (h : Run (system F D V testing) Free as s) (f : F) (k : ℕ) :
    slot (s.values f) k = stored as f k := by
  induction h with
  | start h0 => rw [show _ = State.init from h0]; rfl
  | @step as s s' c _ _ hs ih =>
    rw [stored, List.foldl_append]
    rw [stored] at ih
    obtain ⟨d, rfl, _, rfl⟩ | ⟨idx, rfl, _, rfl⟩ | ⟨g, idx, value, rfl, rfl⟩
      | ⟨g, idx, value, rfl, rfl⟩ := step_cases hs
    · exact ih
    · exact ih
    · by_cases hg : f = g
      · subst hg
        simp only [Function.update_self]
        rw [slot_set (lt_length_grown _ _), slot_grown, ih]
        by_cases hk : k = idx
        · simp [hk]
        · simp [hk, Ne.symm hk]
      · simp only [Function.update_of_ne hg, ih]
        simp [Ne.symm hg]
    · exact ih

/-- `getspecific` of an allocated key returns, and returns what was stored last. -/
theorem run_getspecific {testing : Bool} {as : List (Call F D V)} {s : State F D V}
    (h : Run (system F D V testing) Free as s) {k : ℕ} (hk : allocated as k = true) (f : F) :
    getspecific testing s f k = some (stored as f k) := by
  have htest : Bitmap.test s.bitmap k = true := run_test h k ▸ hk
  have hassert : rassert testing (Bitmap.test s.bitmap k) = true := by
    rw [rassert, htest, Bool.or_true]
  rw [getspecific, if_pos ⟨Bitmap.test_lt htest, hassert⟩, ← run_slot h f k]
  split
  · rfl
  · rw [slot, List.getElem?_eq_none (by omega)]; rfl

/-- CORRECT: `key_create` finds an index that is not allocated as long as there is one; `getspecific`
    of an allocated key returns the value of that key, unless the fibre has not set the key and still
    has a value it stored under the same index before. -/
theorem pthread_keys_iff {testing : Bool} {as : List (Call F D V)} {s : State F D V}
    (h : Run (system F D V testing) Free as s) :
    ((∃ k < 64, allocated as k = false) → ∀ d, ∃ k s', key_create s d = some (k, s') ∧
      allocated as k = false) ∧
    (∀ f k, allocated as k = true → ∃ value, getspecific testing s f k = some value ∧
      (value = specific as f k ↔ setSince as f k = true ∨ stored as f k = none)) := by
  constructor
  · rintro ⟨k, hk, hfree⟩ d
    have hclear : Bitmap.find s.bitmap false < 64 := by
      by_contra hfull
      have := Bitmap.find_clear_full (Nat.le_of_not_lt hfull) hk
      rw [run_test h, hfree] at this
      exact Bool.noConfusion this
    refine ⟨Bitmap.find s.bitmap false, _, by rw [key_create, if_pos hclear], ?_⟩
    rw [← run_test h]
    exact Bitmap.find_clear hclear
  · intro f k hk
    refine ⟨stored as f k, run_getspecific h hk f, ?_⟩
    rw [specific_eq]
    cases hset : setSince as f k with
    | true => simp
    | false => simp

/-- A key is created, set, deleted, and its index created again. -/
def recycled : List (Call Unit ℕ ℕ) :=
  [.keyCreate none 0, .setspecific () 0 (some 7), .keyDelete 0, .keyCreate none 0]

/-- WRONG: under the new key the fibre reads the value of the deleted one. -/
theorem getspecific_stale : ∃ s, Run (system Unit ℕ ℕ true) Free recycled s ∧
    allocated recycled 0 = true ∧ getspecific true s () 0 = some (some 7) ∧
    specific recycled () 0 = none := by
  obtain ⟨s, hrun, hget⟩ := run_of_execAvoiding (system Unit ℕ ℕ true) (fun _ _ => false)
    State.init recycled (fun s => decide (getspecific true s () 0 = some (some 7))) rfl (by decide)
  exact ⟨s, hrun.mono fun _ _ _ => trivial, by decide, of_decide_eq_true hget, by decide⟩

theorem pthread_keys_iff_recycled : ∃ s, Run (system Unit ℕ ℕ true) Free recycled s ∧
    ∃ value, getspecific true s () 0 = some value ∧
      (value = specific recycled () 0 ↔
        setSince recycled () 0 = true ∨ stored recycled () 0 = none) := by
  obtain ⟨s, hrun, _⟩ := run_of_execAvoiding (system Unit ℕ ℕ true) (fun _ _ => false)
    State.init recycled (fun _ => true) rfl (by decide)
  have hfree : Run (system Unit ℕ ℕ true) Free recycled s := hrun.mono fun _ _ _ => trivial
  exact ⟨s, hfree, (pthread_keys_iff hfree).2 () 0 (by decide)⟩

end

end Libfibre.FibreSpecific
