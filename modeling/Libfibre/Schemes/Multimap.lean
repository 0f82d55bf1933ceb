import Mathlib.Data.List.Basic
import Mathlib.Order.Lattice

/-! Multimaps as lists that are sorted by key: a value is inserted behind all that have its key, a search
    finds the first value whose key is not less than the one given. What has been inserted comes out
    in the order of the keys, and values of one key in the order they went in. -/

namespace Libfibre.Multimap

variable {κ α : Type} [LinearOrder κ] (key : α → κ)

def insert (x : α) : List α → List α
  | [] => [x]
  | y :: m => if key x < key y then x :: y :: m else y :: insert x m

/-- The multimap of the values of a list, inserted one after the other. -/
def ofList (l : List α) : List α := l.foldl (fun m x => insert key x m) []

def lowerBound (k : κ) (m : List α) : Option α := m.find? fun x => decide (k ≤ key x)

/-- `erase` of what `lowerBound` finds. -/
def eraseBound (k : κ) (m : List α) : List α := m.eraseP fun x => decide (k ≤ key x)

def Sorted (m : List α) : Prop := m.Pairwise fun x y => key x ≤ key y

/-- `m` has the values of `l`, by key, and within a key in the order of `l`. -/
structure StableSort (l m : List α) : Prop where
  sorted : Sorted key m
  stable : ∀ k, (m.filter fun x => decide (key x = k)) = l.filter fun x => decide (key x = k)

variable {key} {l m : List α} {x y : α} {k : κ}

theorem mem_insert : y ∈ insert key x m ↔ y = x ∨ y ∈ m := by
  induction m with
  | nil => rw [insert, List.mem_singleton, List.mem_nil_iff, or_false]
  | cons z m ih =>
    rw [insert]
    split
    · exact List.mem_cons
    · rw [List.mem_cons, ih, List.mem_cons]
      exact or_left_comm

theorem length_insert (x : α) (m : List α) : (insert key x m).length = m.length + 1 := by
  induction m with
  | nil => rfl
  | cons z m ih =>
    rw [insert]
    split
    · rfl
    · rw [List.length_cons, ih, List.length_cons]

theorem length_ofList (l : List α) : (ofList key l).length = l.length := by
  suffices h : ∀ m : List α, (l.foldl (fun m x => insert key x m) m).length = m.length + l.length by
    exact (h []).trans (Nat.zero_add _)
  induction l with
  | nil => exact fun _ => rfl
  | cons x l ih =>
    intro m
    rw [List.foldl_cons, ih, length_insert, List.length_cons]
    omega

theorem sorted_insert (h : Sorted key m) (x : α) : Sorted key (insert key x m) := by
  induction m with
  | nil => exact List.pairwise_singleton _ x
  | cons z m ih =>
    obtain ⟨hz, hm⟩ := List.pairwise_cons.mp h
    rw [insert]
    split
    · rename_i hlt
      refine List.pairwise_cons.mpr ⟨fun y hy => ?_, h⟩
      rcases List.mem_cons.mp hy with rfl | hy
      · exact le_of_lt hlt
      · exact (le_of_lt hlt).trans (hz y hy)
    · rename_i hge
      refine List.pairwise_cons.mpr ⟨fun y hy => ?_, ih hm⟩
      rcases mem_insert.mp hy with rfl | hy
      · exact not_lt.mp hge
      · exact hz y hy

/-- A value goes behind those of its key. -/
theorem filter_insert (h : Sorted key m) (x : α) (k : κ) :
    ((insert key x m).filter fun y => decide (key y = k)) =
      (m.filter fun y => decide (key y = k)) ++ [x].filter fun y => decide (key y = k) := by
  induction m with
  | nil => rfl
  | cons z m ih =>
    obtain ⟨hz, hm⟩ := List.pairwise_cons.mp h
    rw [insert]
    split
    · rename_i hlt
      by_cases hk : key x = k
      · -- all that follows is of a greater key
        have hnone : ((z :: m).filter fun y => decide (key y = k)) = [] := by
          refine List.filter_eq_nil_iff.mpr fun y hy => ?_
          have hle : key z ≤ key y := by
            rcases List.mem_cons.mp hy with rfl | hy
            · exact le_rfl
            · exact hz y hy
          rw [decide_eq_true_eq, ← hk]
          exact (lt_of_lt_of_le hlt hle).ne'
        rw [List.filter_cons, hnone, List.nil_append, List.filter_cons, List.filter_nil]
      · rw [List.filter_cons_of_neg (by rwa [decide_eq_true_eq]),
          List.filter_cons_of_neg (l := []) (by rwa [decide_eq_true_eq]), List.filter_nil, List.append_nil]
    · rw [List.filter_cons, List.filter_cons, ih hm]
      split
      · rfl
      · rfl

theorem stableSort_insert (h : StableSort key l m) (x : α) : StableSort key (l ++ [x]) (insert key x m) where
  sorted := sorted_insert h.sorted x
  stable k := by rw [filter_insert h.sorted, h.stable, List.filter_append]

/-- What has been inserted comes out sorted, and stably so. -/
theorem stableSort_ofList (l : List α) : StableSort key l (ofList key l) := by
  suffices h : ∀ (back front m : List α), StableSort key front m →
      StableSort key (front ++ back) (back.foldl (fun m x => insert key x m) m) by
    exact h l [] [] ⟨List.Pairwise.nil, fun _ => rfl⟩
  intro back
  induction back with
  | nil =>
    intro front m h
    rw [List.append_nil]
    exact h
  | cons x back ih =>
    intro front m h
    rw [List.append_cons]
    exact ih _ _ (stableSort_insert h x)

/-- A part of the values. -/
theorem StableSort.filter (h : StableSort key l m) (p : α → Bool) :
    StableSort key (l.filter p) (m.filter p) where
  sorted := h.sorted.sublist List.filter_sublist
  stable k := by
    rw [List.filter_filter, List.filter_filter]
    have hm := congrArg (List.filter p) (h.stable k)
    rw [List.filter_filter, List.filter_filter] at hm
    simpa only [Bool.and_comm] using hm

theorem StableSort.mem (h : StableSort key l m) : x ∈ m ↔ x ∈ l := by
  have hx : ∀ n : List α, x ∈ n ↔ x ∈ n.filter fun y => decide (key y = key x) := by
    intro n
    rw [List.mem_filter, decide_eq_true_eq]
    exact ⟨fun hmem => ⟨hmem, rfl⟩, And.left⟩
  rw [hx m, h.stable, ← hx l]

/-- The search splits the multimap where the keys reach the one given. -/
theorem lowerBound_some (hx : lowerBound key k m = some x) :
    k ≤ key x ∧ ∃ front back, m = front ++ x :: back ∧ eraseBound key k m = front ++ back ∧
      ∀ y ∈ front, key y < k := by
  induction m with
  | nil => cases hx
  | cons z m ih =>
    by_cases hz : k ≤ key z
    · rw [lowerBound, List.find?_cons_of_pos (by rwa [decide_eq_true_eq])] at hx
      obtain rfl := Option.some.inj hx
      exact ⟨hz, [], m, rfl, List.eraseP_cons_of_pos (by rwa [decide_eq_true_eq]), nofun⟩
    · rw [lowerBound, List.find?_cons_of_neg (by rwa [decide_eq_true_eq])] at hx
      obtain ⟨hle, front, back, rfl, herase, hfront⟩ := ih hx
      refine ⟨hle, z :: front, back, rfl, ?_, fun y hy => ?_⟩
      · rw [eraseBound, List.eraseP_cons_of_neg (by rwa [decide_eq_true_eq])]
        exact congrArg (z :: ·) herase
      · rcases List.mem_cons.mp hy with rfl | hy
        · exact not_le.mp hz
        · exact hfront y hy

/-- Nothing between the key given and the one found. -/
theorem Sorted.lowerBound_le (h : Sorted key m) (hy : y ∈ m) (hk : k ≤ key y) :
    ∃ x, lowerBound key k m = some x ∧ key x ≤ key y := by
  cases hx : lowerBound key k m with
  | none =>
    have hnone := List.find?_eq_none.mp hx y hy
    rw [decide_eq_true_eq] at hnone
    exact absurd hk hnone
  | some x =>
    obtain ⟨-, front, back, rfl, -, hfront⟩ := lowerBound_some hx
    refine ⟨x, rfl, ?_⟩
    rcases List.mem_append.mp hy with hy | hy
    · exact absurd hk (not_le.mpr (hfront y hy))
    · rcases List.mem_cons.mp hy with rfl | hy
      · exact le_rfl
      · exact (List.pairwise_cons.mp (List.pairwise_append.mp h).2.1).1 y hy

end Libfibre.Multimap
