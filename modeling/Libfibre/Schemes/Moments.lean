import Mathlib.Algebra.BigOperators.Fin
import Mathlib.Algebra.Order.Chebyshev

/-! The sum and the sum of the squares of a list of integers: the first is at most the second, and its
    square at most the second times the length, also after a division that truncates. -/

namespace Libfibre.Moments

def sumSq (l : List ℤ) : ℤ := (l.map (· ^ 2)).sum

theorem sumSq_concat (l : List ℤ) (v : ℤ) : sumSq (l ++ [v]) = sumSq l + v * v := by
  simp only [sumSq, List.map_append, List.map_cons, List.map_nil, List.sum_append, List.sum_cons,
    List.sum_nil, add_zero, pow_two]

theorem sumSq_append (l m : List ℤ) : sumSq (l ++ m) = sumSq l + sumSq m := by
  simp only [sumSq, List.map_append, List.sum_append]

theorem sumSq_nonneg (l : List ℤ) : 0 ≤ sumSq l := by
  refine List.sum_nonneg fun x hx => ?_
  obtain ⟨v, -, rfl⟩ := List.mem_map.mp hx
  exact sq_nonneg v

/-- An integer is at most its square, and so is a sum of integers at most that of the squares. -/
theorem abs_sum_le (l : List ℤ) : |l.sum| ≤ sumSq l := by
  induction l with
  | nil => exact le_rfl
  | cons v l ih =>
    have hv : |v| ≤ v ^ 2 := by
      rw [← sq_abs v]
      exact Int.le_self_sq |v|
    calc |(v :: l).sum| = |v + l.sum| := by rw [List.sum_cons]
      _ ≤ |v| + |l.sum| := abs_add_le v l.sum
      _ ≤ v ^ 2 + sumSq l := add_le_add hv ih
      _ = sumSq (v :: l) := by rw [sumSq, sumSq, List.map_cons, List.sum_cons]

/-- Cauchy-Schwarz. -/
theorem sq_sum_le (l : List ℤ) : l.sum ^ 2 ≤ l.length * sumSq l := by
  have h := sq_sum_le_card_mul_sum_sq (s := (Finset.univ : Finset (Fin l.length))) (f := fun i => l[i])
  have hsum : ∑ i : Fin l.length, l[i] = l.sum := by
    have hid := Fin.sum_univ_fun_getElem l id
    rw [List.map_id] at hid
    exact hid
  have hsq : ∑ i : Fin l.length, l[i] ^ 2 = sumSq l := Fin.sum_univ_fun_getElem l (· ^ 2)
  rw [hsum, hsq, Finset.card_univ, Fintype.card_fin] at h
  exact h

/-- So the variance is not negative, and no part of it is more than the sum of the squares. -/
theorem quotient_le {l : List ℤ} (hne : l ≠ []) :
    0 ≤ (l.sum * l.sum).tdiv l.length ∧ (l.sum * l.sum).tdiv l.length ≤ sumSq l := by
  have hlen : (0 : ℤ) < l.length := by exact_mod_cast List.length_pos_iff.mpr hne
  have hcs := sq_sum_le l
  rw [pow_two] at hcs
  have hsq : 0 ≤ l.sum * l.sum := mul_self_nonneg _
  rw [Int.tdiv_eq_ediv_of_nonneg hsq]
  refine ⟨Int.ediv_nonneg hsq hlen.le, ?_⟩
  rw [← Int.mul_ediv_cancel_left (sumSq l) hlen.ne']
  exact Int.ediv_le_ediv hlen hcs

end Libfibre.Moments
