import Mathlib.Algebra.BigOperators.Group.Finset.Basic
import Mathlib.Algebra.Order.BigOperators.Group.Finset
import Mathlib.Data.Fintype.BigOperators

/-! Weighted head counts over a finite family of parties. When one party moves, the count changes by
    the difference of its own two weights (`tally_update`): with it, a conservation law over any
    number of parties is linear arithmetic about the one that moves. -/

namespace Libfibre.Tally

variable {ι α : Type} [Fintype ι]

/-- The sum of the parties' weights `w`, party `i` being at `p i`. -/
def tally (w : α → ℕ) (p : ι → α) : ℕ := ∑ i, w (p i)

theorem tally_update [DecidableEq ι] (w : α → ℕ) (p : ι → α) (i : ι) (a : α) :
    tally w (Function.update p i a) + w (p i) = tally w p + w a := by
  have hrest : ∑ j ∈ Finset.univ.erase i, w (Function.update p i a j)
      = ∑ j ∈ Finset.univ.erase i, w (p j) :=
    Finset.sum_congr rfl fun j hj => by
      rw [Function.update_of_ne (Finset.ne_of_mem_erase hj)]
  rw [tally, tally, ← Finset.add_sum_erase _ _ (Finset.mem_univ i), hrest,
    ← Finset.add_sum_erase _ (fun j => w (p j)) (Finset.mem_univ i), Function.update_self]
  omega

/-- The same for weights that depend on more than where a party is. -/
theorem tally_moved [DecidableEq ι] {m n : ι → ℕ} (i : ι) (h : ∀ j, j ≠ i → n j = m j) :
    tally id n + m i = tally id m + n i := by
  have hm : n = Function.update m i (n i) := by
    funext j
    rcases eq_or_ne j i with rfl | hne
    · rw [Function.update_self]
    · rw [Function.update_of_ne hne, h j hne]
  have hu := tally_update id m i (n i)
  rw [← hm] at hu
  exact hu

theorem le_tally (w : α → ℕ) (p : ι → α) (i : ι) : w (p i) ≤ tally w p :=
  Finset.single_le_sum (f := fun j => w (p j)) (fun _ _ => Nat.zero_le _) (Finset.mem_univ i)

theorem tally_le_card {w : α → ℕ} (p : ι → α) (h : ∀ a, w a ≤ 1) : tally w p ≤ Fintype.card ι := by
  calc tally w p ≤ ∑ _i : ι, 1 := Finset.sum_le_sum fun i _ => h (p i)
    _ = Fintype.card ι := (Finset.card_eq_sum_ones _).symm

theorem tally_eq_zero {w : α → ℕ} {p : ι → α} (h : ∀ i, w (p i) = 0) : tally w p = 0 :=
  Finset.sum_eq_zero fun i _ => h i

/-- All parties but one have the weight if they are as many as the count. -/
theorem weight_of_tally [DecidableEq ι] {w : α → ℕ} {p : ι → α} (hw : ∀ a, w a ≤ 1) {i : ι}
    (hi : w (p i) = 0) (h : tally w p + 1 = Fintype.card ι) {j : ι} (hj : j ≠ i) : w (p j) = 1 := by
  by_contra hne
  have hzero : w (p j) = 0 := by have := hw (p j); omega
  have hle : tally w p ≤ ∑ k ∈ (Finset.univ.erase i).erase j, 1 := by
    rw [tally, ← Finset.add_sum_erase _ _ (Finset.mem_univ i), hi, Nat.zero_add,
      ← Finset.add_sum_erase _ _ (Finset.mem_erase.mpr ⟨hj, Finset.mem_univ j⟩), hzero, Nat.zero_add]
    exact Finset.sum_le_sum fun k _ => hw (p k)
  have hcard := Finset.card_erase_add_one (Finset.mem_erase.mpr ⟨hj, Finset.mem_univ j⟩)
  rw [Finset.card_erase_of_mem (Finset.mem_univ i), Finset.card_univ] at hcard
  rw [← Finset.card_eq_sum_ones] at hle
  omega

/-- A weight that is spent once is spent by one party. -/
theorem unique_of_tally_le_one [DecidableEq ι] {w : α → ℕ} {p : ι → α} (h : tally w p ≤ 1) {i j : ι}
    (hi : 0 < w (p i)) (hj : 0 < w (p j)) : i = j := by
  by_contra hne
  have hpair := Finset.sum_le_univ_sum_of_nonneg (s := {i, j}) (f := fun k => w (p k))
    fun _ => Nat.zero_le _
  rw [Finset.sum_pair hne] at hpair
  rw [tally] at h
  omega

end Libfibre.Tally
