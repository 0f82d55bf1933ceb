import Libfibre.FibreSpecific.Keys
import Mathlib.Data.List.Perm.Basic

/-! `clearSpecific` (`Fibre.h`), called when a fibre finishes: a walk over the bitmap of keys that
    calls the destructors of the keys whose value is not null.

        idx := start := find()
        do  destructors[idx](values[idx]);  idx := findnext(idx)  while idx > start

    `findnext(idx)` starts at `idx` itself, which is a set bit: it answers `idx`, and the walk is over
    after the lowest key (`clearSpecific_eq`). That key's value may be one that the fibre stored under a
    deleted key of the same index (`Stale`). -/

namespace Libfibre.FibreSpecific
open Transition

variable {F D V : Type} [DecidableEq F]

/-- A call of a destructor: for which key, which destructor, and what with. -/
abbrev Called (D V : Type) := ℕ × D × V

/-- The loop of `clearSpecific`, for that many rounds; a destructor may change the fibre's values.
    A read of `destructors` beyond its end has no result. -/
def clearLoop (effect : D → V → List (Option V) → List (Option V)) (s : State F D V) (start : ℕ) :
    ℕ → ℕ → List (Option V) → List (Called D V) → Option (List (Called D V))
  | 0, _, _, _ => none
  | fuel + 1, idx, values, calls =>
    match s.destructors[idx]? with
    | none => none
    | some d =>
      let (values, calls) := match d, slot values idx with
        | some d, some v => (effect d v values, calls ++ [(idx, d, v)])
        | _, _ => (values, calls)
      let next := Bitmap.findnext s.bitmap idx true
      if start < next then clearLoop effect s start fuel next values calls else some calls

/-- `clearSpecific` of fibre `f`: the destructors it calls and what with. -/
def clearSpecific (effect : D → V → List (Option V) → List (Option V)) (fuel : ℕ)
    (s : State F D V) (f : F) : Option (List (Called D V)) :=
  let start := Bitmap.find s.bitmap true
  if 64 ≤ start then some [] else clearLoop effect s start fuel start (s.values f) []

/-! ### What is to be called -/

/-- A call for key `k`, if neither pointer is null. -/
def callOf (k : ℕ) : Option D → Option V → Option (Called D V)
  | some d, some v => some (k, d, v)
  | _, _ => none

/-- The destructor of key `k`: what its last `key_create` was given, null once it is deleted. -/
def registered (as : List (Call F D V)) (k : ℕ) : Option D :=
  as.foldl (fun x c => match c with
    | .keyCreate d idx => if idx = k then d else x
    | .keyDelete idx => if idx = k then none else x
    | _ => x) none

/-- What is to be called for key `k`: its destructor with its value in the fibre. -/
def due (as : List (Call F D V)) (f : F) (k : ℕ) : Option (Called D V) :=
  callOf k (registered as k) (specific as f k)

/-- What is to be called for all allocated keys. -/
def allDue (as : List (Call F D V)) (f : F) : List (Called D V) :=
  ((List.range 64).filter (allocated as)).filterMap (due as f)

/-- After these calls `clearSpecific` returns, having called each destructor that is due once and no
    other. -/
def Cleared (effect : D → V → List (Option V) → List (Option V)) (as : List (Call F D V))
    (s : State F D V) (f : F) : Prop :=
  ∃ fuel calls, clearSpecific effect fuel s f = some calls ∧ calls.Perm (allDue as f)

/-- The fibre finds a value under `k` that it has not set for the key, and the key has a destructor. -/
def Stale (as : List (Call F D V)) (f : F) (k : ℕ) : Prop :=
  registered as k ≠ none ∧ stored as f k ≠ none ∧ setSince as f k = false

/-! ### The walk ends where it starts -/

/-- RUN: every allocated key has an element in `destructors`. -/
theorem run_destructors [DecidableEq V] {testing : Bool} {as : List (Call F D V)} {s : State F D V}
    (h : Run (system F D V testing) Free as s) {k : ℕ} (hk : Bitmap.test s.bitmap k = true) :
    k < s.destructors.length := by
  induction h with
  | start h0 =>
    rw [show _ = State.init from h0, State.init, Bitmap.test_zero] at hk
    exact Bool.noConfusion hk
  | @step as s s' c _ _ hs ih =>
    obtain ⟨d, rfl, hlt, rfl⟩ | ⟨idx, rfl, _, rfl⟩ | ⟨f, idx, value, rfl, rfl⟩
      | ⟨f, idx, value, rfl, rfl⟩ := step_cases hs
    · rw [List.length_set]
      rw [Bitmap.test_set hlt, Bool.or_eq_true, decide_eq_true_iff] at hk
      rcases hk with rfl | hk
      · exact lt_length_grown _ _
      · exact Nat.lt_of_lt_of_le (ih hk) (le_length_grown _ _)
    · rw [List.length_set]
      rw [Bitmap.test_clr, Bool.and_eq_true] at hk
      exact ih hk.2
    · exact ih hk
    · exact ih hk

/-- RUN: the vector of destructors holds the destructor of each key. -/
theorem run_registered [DecidableEq V] {testing : Bool} {as : List (Call F D V)} {s : State F D V}
    (h : Run (system F D V testing) Free as s) (k : ℕ) :
    slot s.destructors k = registered as k := by
  induction h with
  | start h0 => rw [show _ = State.init from h0]; rfl
  | @step as s s' c _ _ hs ih =>
    rw [registered, List.foldl_append]
    rw [registered] at ih
    obtain ⟨d, rfl, _, rfl⟩ | ⟨idx, rfl, hlt, rfl⟩ | ⟨f, idx, value, rfl, rfl⟩
      | ⟨f, idx, value, rfl, rfl⟩ := step_cases hs
    · rw [slot_set (lt_length_grown _ _), slot_grown, ih]
      by_cases hk : k = Bitmap.find s.bitmap false
      · simp [← hk]
      · simp [hk, Ne.symm hk]
    · rw [slot_set hlt, ih]
      by_cases hk : k = idx
      · simp [hk]
      · simp [hk, Ne.symm hk]
    · exact ih
    · exact ih

/-- What the code finds under a key is what is due, unless its value is stale. -/
theorem found_eq_due_iff [DecidableEq V] {testing : Bool} {as : List (Call F D V)} {s : State F D V}
    (h : Run (system F D V testing) Free as s) (f : F) (k : ℕ) :
    callOf k (slot s.destructors k) (slot (s.values f) k) = due as f k ↔ ¬ Stale as f k := by
  rw [due, run_registered h, run_slot h, specific_eq, Stale]
  cases registered as k with
  | none => simp [callOf]
  | some d =>
    cases stored as f k with
    | none => simp [callOf]
    | some v => cases setSince as f k <;> simp [callOf]

omit [DecidableEq F] in
/-- One round, whatever the fuel: only the lowest key is looked at. -/
theorem clearSpecific_eq (effect : D → V → List (Option V) → List (Option V)) {s : State F D V}
    (hd : ∀ k, Bitmap.test s.bitmap k = true → k < s.destructors.length) (f : F)
    (h : Bitmap.find s.bitmap true < 64) (fuel : ℕ) :
    clearSpecific effect (fuel + 1) s f = some (callOf (Bitmap.find s.bitmap true)
      (slot s.destructors (Bitmap.find s.bitmap true))
      (slot (s.values f) (Bitmap.find s.bitmap true))).toList := by
  have hset := (Bitmap.find_spec h).1
  have hlen := hd _ hset
  have hself := Bitmap.findnext_self hset
  have hdtor : s.destructors[Bitmap.find s.bitmap true]? =
      some (s.destructors[Bitmap.find s.bitmap true]) := List.getElem?_eq_getElem hlen
  have hslot : slot s.destructors (Bitmap.find s.bitmap true) =
      s.destructors[Bitmap.find s.bitmap true] := by rw [slot, hdtor, Option.join_some]
  rw [clearSpecific, if_neg (by omega), clearLoop, hdtor, hslot]
  simp only [hself, Nat.lt_irrefl, if_false]
  cases s.destructors[Bitmap.find s.bitmap true] with
  | none => rfl
  | some d =>
    cases slot (s.values f) (Bitmap.find s.bitmap true) with
    | none => rfl
    | some v => rfl

/-- One element of a duplicate-free list gives all that the list gives only if the others give
    nothing. -/
theorem toList_perm_filterMap {ι β : Type} [DecidableEq ι] {l : List ι} (hl : l.Nodup) {a : ι}
    (ha : a ∈ l) (g : ι → Option β) :
    (g a).toList.Perm (l.filterMap g) ↔ ∀ k ∈ l, k ≠ a → g k = none := by
  have hperm : (l.filterMap g).Perm ((g a).toList ++ (l.erase a).filterMap g) := by
    refine ((List.perm_cons_erase ha).filterMap g).trans ?_
    cases hg : g a with
    | none => rw [List.filterMap_cons_none hg]; exact .refl _
    | some b => rw [List.filterMap_cons_some hg]; exact .refl _
  have hrest : (l.erase a).filterMap g = [] ↔ ∀ k ∈ l, k ≠ a → g k = none := by
    rw [List.filterMap_eq_nil_iff]
    constructor
    · intro h k hk hne
      exact h k (hl.mem_erase_iff.mpr ⟨hne, hk⟩)
    · intro h k hk
      obtain ⟨hne, hk⟩ := hl.mem_erase_iff.mp hk
      exact h k hk hne
  rw [← hrest]
  constructor
  · intro h
    have hlen := (h.trans hperm).length_eq
    rw [List.length_append] at hlen
    exact List.eq_nil_of_length_eq_zero (by omega)
  · intro h
    rw [h, List.append_nil] at hperm
    exact hperm.symm

/-- The same for what can only be given by `a`. -/
theorem toList_perm_iff {ι β : Type} [DecidableEq ι] {l : List ι} (hl : l.Nodup) {a : ι} (ha : a ∈ l)
    {g : ι → Option β} {x : Option β} (hx : ∀ b k, x = some b → g k = some b → k = a) :
    x.toList.Perm (l.filterMap g) ↔ x = g a ∧ ∀ k ∈ l, k ≠ a → g k = none := by
  rw [← toList_perm_filterMap hl ha g]
  constructor
  · intro h
    have heq : x = g a := by
      cases hx' : x with
      | none =>
        rw [hx', Option.toList_none] at h
        exact (List.filterMap_eq_nil_iff.mp h.symm.eq_nil a ha).symm
      | some b =>
        have hmem : b ∈ l.filterMap g := h.mem_iff.mp (by simp [hx'])
        obtain ⟨k, -, hk⟩ := List.mem_filterMap.mp hmem
        rw [← hx b k hx' hk, hk]
    exact ⟨heq, heq ▸ h⟩
  · rintro ⟨rfl, h⟩
    exact h

theorem due_eq_none_iff (as : List (Call F D V)) (f : F) (k : ℕ) :
    due as f k = none ↔ registered as k = none ∨ specific as f k = none := by
  rw [due]
  cases registered as k <;> cases specific as f k <;> simp [callOf]

omit [DecidableEq F] in
theorem callOf_key {k j : ℕ} {d d' : Option D} {v v' : Option V} {b : Called D V}
    (hk : callOf k d v = some b) (hj : callOf j d' v' = some b) : j = k := by
  cases d <;> cases v <;> simp only [callOf, reduceCtorEq, Option.some.injEq] at hk
  cases d' <;> cases v' <;> simp only [callOf, reduceCtorEq, Option.some.injEq] at hj
  exact congrArg Prod.fst (hj.trans hk.symm)

/-- CORRECT: a finishing fibre has its destructors called exactly if no allocated key but the lowest
    one has both a destructor and a value, and the lowest one has no stale value. -/
theorem cleared_iff [DecidableEq V] {testing : Bool} {as : List (Call F D V)} {s : State F D V}
    (h : Run (system F D V testing) Free as s)
    (effect : D → V → List (Option V) → List (Option V)) (f : F) :
    Cleared effect as s f ↔
      (∀ k, allocated as k = true → (∃ j < k, allocated as j = true) →
        registered as k = none ∨ specific as f k = none) ∧
      ∀ k, allocated as k = true → (∀ j < k, allocated as j = false) → ¬ Stale as f k := by
  have hd : ∀ k, Bitmap.test s.bitmap k = true → k < s.destructors.length :=
    fun k hk => run_destructors h hk
  by_cases hfull : 64 ≤ Bitmap.find s.bitmap true
  · have hnone : ∀ k, ¬ allocated as k = true := fun k hk => by
      rw [← run_test h, Bitmap.find_full hfull] at hk
      cases hk
    refine iff_of_true ⟨0, [], by rw [clearSpecific, if_pos hfull], ?_⟩
      ⟨fun k hk => absurd hk (hnone k), fun k hk => absurd hk (hnone k)⟩
    rw [allDue, List.filter_eq_nil_iff.mpr fun k _ => hnone k, List.filterMap_nil]
  · have hlt : Bitmap.find s.bitmap true < 64 := by omega
    obtain ⟨hset, hlow⟩ := Bitmap.find_spec hlt
    rw [run_test h] at hset
    have hlow : ∀ j < Bitmap.find s.bitmap true, allocated as j = false := fun j hj =>
      (run_test h j).symm.trans (hlow j hj)
    have hrange : ∀ k, k ∈ (List.range 64).filter (allocated as) ↔ allocated as k = true := fun k => by
      rw [List.mem_filter, List.mem_range]
      exact and_iff_right_of_imp fun hk => Bitmap.test_lt ((run_test h k).trans hk)
    have hone : Cleared effect as s f ↔ (callOf (Bitmap.find s.bitmap true)
        (slot s.destructors (Bitmap.find s.bitmap true))
        (slot (s.values f) (Bitmap.find s.bitmap true))).toList.Perm (allDue as f) := by
      constructor
      · rintro ⟨fuel, calls, hcalls, hperm⟩
        cases fuel with
        | zero => rw [clearSpecific, if_neg hfull] at hcalls; cases hcalls
        | succ fuel =>
          rw [clearSpecific_eq effect hd f hlt, Option.some.injEq] at hcalls
          rw [hcalls]
          exact hperm
      · intro hperm
        exact ⟨1, _, clearSpecific_eq effect hd f hlt 0, hperm⟩
    rw [hone, allDue, toList_perm_iff (g := due as f) (List.nodup_range.filter _)
      ((hrange _).mpr hset) (fun b k => callOf_key), found_eq_due_iff h, and_comm]
    refine and_congr ⟨fun hrest k hk hlower => ?_, fun hrest k hk hne => ?_⟩
      ⟨fun hfresh k hk hfirst => ?_, fun hfresh => hfresh _ hset hlow⟩
    · refine (due_eq_none_iff as f k).mp (hrest k ((hrange k).mpr hk) ?_)
      rintro rfl
      obtain ⟨j, hj, hjset⟩ := hlower
      rw [hlow j hj] at hjset
      cases hjset
    · have hk : allocated as k = true := (hrange k).mp hk
      have hle : Bitmap.find s.bitmap true ≤ k := by
        by_contra hbelow
        rw [hlow k (by omega)] at hk
        cases hk
      exact (due_eq_none_iff as f k).mpr (hrest k hk ⟨_, lt_of_le_of_ne hle hne.symm, hset⟩)
    · have hle : k ≤ Bitmap.find s.bitmap true := by
        by_contra habove
        rw [hfirst _ (by omega)] at hset
        cases hset
      have hge : Bitmap.find s.bitmap true ≤ k := by
        by_contra hbelow
        rw [hlow k (by omega)] at hk
        cases hk
      rwa [le_antisymm hle hge]

/-- Two keys with destructors 1 and 2, both set. -/
def twoKeys : List (Call Unit ℕ ℕ) :=
  [.keyCreate (some 1) 0, .keyCreate (some 2) 1, .setspecific () 0 (some 7),
    .setspecific () 1 (some 8)]

/-- WRONG: the destructor of the second key is never called. -/
theorem second_destructor_lost : ∃ s, Run (system Unit ℕ ℕ true) Free twoKeys s ∧
    due twoKeys () 1 = some (1, 2, 8) ∧ ∀ effect, ¬ Cleared effect twoKeys s () := by
  obtain ⟨s, hrun, _⟩ := run_of_execAvoiding (system Unit ℕ ℕ true) (fun _ _ => false)
    State.init twoKeys (fun _ => true) rfl (by decide)
  have hfree : Run (system Unit ℕ ℕ true) Free twoKeys s := hrun.mono fun _ _ _ => trivial
  refine ⟨s, hfree, by decide, fun effect hcleared => ?_⟩
  obtain ⟨fuel, calls, hcalls, hperm⟩ := hcleared
  have hlen : calls.length = 2 := hperm.length_eq.trans (by decide)
  by_cases hfull : 64 ≤ Bitmap.find s.bitmap true
  · have hnone := (run_test hfree 0).symm.trans (Bitmap.find_full hfull 0)
    cases hnone
  · cases fuel with
    | zero => rw [clearSpecific, if_neg hfull] at hcalls; cases hcalls
    | succ fuel =>
      rw [clearSpecific_eq effect (fun k hk => run_destructors hfree hk) () (by omega),
        Option.some.injEq] at hcalls
      rw [← hcalls] at hlen
      revert hlen
      cases callOf _ _ _ <;> simp

/-- Key 0 is deleted and created again with another destructor, and set again; key 1 has none. -/
def setAgain : List (Call Unit ℕ ℕ) :=
  [.keyCreate (some 1) 0, .keyCreate none 1, .setspecific () 0 (some 5), .keyDelete 0,
    .keyCreate (some 2) 0, .setspecific () 0 (some 7), .setspecific () 1 (some 8)]

theorem cleared_iff_setAgain : ∃ s, Run (system Unit ℕ ℕ true) Free setAgain s ∧
    allDue setAgain () = [(0, 2, 7)] ∧ Cleared (fun _ _ values => values) setAgain s () := by
  obtain ⟨s, hrun, _⟩ := run_of_execAvoiding (system Unit ℕ ℕ true) (fun _ _ => false)
    State.init setAgain (fun _ => true) rfl (by decide)
  have hrun : Run (system Unit ℕ ℕ true) Free setAgain s := hrun.mono fun _ _ _ => trivial
  have hkeys : ∀ k, allocated setAgain k = true → k = 0 ∨ k = 1 := fun k hk => by
    by_contra hne
    obtain ⟨h0, h1⟩ := not_or.mp hne
    simp [allocated, setAgain, Ne.symm h0, Ne.symm h1] at hk
  refine ⟨s, hrun, by decide, (cleared_iff hrun _ ()).mpr ⟨fun k hk hlower => ?_, fun k hk _ => ?_⟩⟩
  · rcases hkeys k hk with rfl | rfl
    · obtain ⟨j, hj, -⟩ := hlower
      exact absurd hj (Nat.not_lt_zero j)
    · exact .inl (by decide)
  · rcases hkeys k hk with rfl | rfl
    · exact fun hstale => absurd hstale.2.2 (by decide)
    · exact fun hstale => hstale.1 (by decide)

end Libfibre.FibreSpecific
