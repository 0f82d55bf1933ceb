import Libfibre.Schemes.Moments
import Mathlib.Tactic.Linarith

/-! `FredStats::Average` (`Stats.h`): the count, the sum and the sum of the squares of the samples, each a
    `Number` of 64 bits, counted one by one or put together from parts. What `variance` passes to `sqrt` is
    computed from the square of the sum, which may not fit although all three do: it does for sums up to
    3037000499. -/

namespace Libfibre.FredStats
open Moments

/-! ### `Number` -/

def Fits (x : ℤ) : Prop := -2 ^ 63 ≤ x ∧ x < 2 ^ 63

instance (x : ℤ) : Decidable (Fits x) := inferInstanceAs (Decidable (_ ∧ _))

/-- What `__atomic_add_fetch` makes of a result. -/
def wrap (x : ℤ) : ℤ := x.bmod (2 ^ 64)

/-- The result of an operator on `Number`. Overflow is undefined: `o` is what comes of it, if anything. -/
def number (o : ℤ → Option ℤ) (x : ℤ) : Option ℤ := if Fits x then some x else o x

theorem wrap_of_fits {x : ℤ} (h : Fits x) : wrap x = x := by
  obtain ⟨hlo, hhi⟩ := h
  rw [wrap, Int.bmod_eq_iff (by norm_num)]
  refine ⟨?_, ?_, ?_⟩
  · omega
  · omega
  · rw [sub_self]
    exact dvd_zero _

theorem number_overflow {o : ℤ → Option ℤ} {x : ℤ} (h : ¬ Fits x) : number o x = o x := if_neg h

theorem number_of_fits {o : ℤ → Option ℤ} {x : ℤ} (h : Fits x) : number o x = some x := if_pos h

/-! ### `Average` -/

structure Average where
  cnt : ℤ
  sum : ℤ
  sqsum : ℤ
  deriving DecidableEq

section Model
variable (o : ℤ → Option ℤ)

def Average.count (a : Average) (val : ℤ) : Option Average := do
  let square ← number o (val * val)
  some ⟨wrap (a.cnt + 1), wrap (a.sum + val), wrap (a.sqsum + square)⟩

def Average.aggregate (a x : Average) : Option Average := do
  let cnt ← number o (a.cnt + x.cnt)
  let sum ← number o (a.sum + x.sum)
  let sqsum ← number o (a.sqsum + x.sqsum)
  some ⟨cnt, sum, sqsum⟩

def Average.average (a : Average) : Option ℤ :=
  if a.cnt = 0 then some 0 else number o (a.sum.tdiv a.cnt)

/-- `(sqsum - (sum*sum) / cnt) / cnt` -/
def Average.radicand (a : Average) : Option ℤ := do
  let square ← number o (a.sum * a.sum)
  let mean ← number o (square.tdiv a.cnt)
  let diff ← number o (a.sqsum - mean)
  number o (diff.tdiv a.cnt)

def Average.variance (sqrt : ℤ → ℤ) (a : Average) : Option ℤ :=
  if a.cnt = 0 then some 0 else (a.radicand o).map sqrt

variable {o} in
theorem count_of_fits {a : Average} {val : ℤ} (hsq : Fits (val * val)) (hcnt : Fits (a.cnt + 1))
    (hsum : Fits (a.sum + val)) (hsqsum : Fits (a.sqsum + val * val)) :
    a.count o val = some ⟨a.cnt + 1, a.sum + val, a.sqsum + val * val⟩ := by
  rw [Average.count, number_of_fits hsq, Option.bind_eq_bind, Option.bind_some, wrap_of_fits hcnt,
    wrap_of_fits hsum, wrap_of_fits hsqsum]

variable {o} in
theorem aggregate_of_fits {a x : Average} (hcnt : Fits (a.cnt + x.cnt)) (hsum : Fits (a.sum + x.sum))
    (hsqsum : Fits (a.sqsum + x.sqsum)) :
    a.aggregate o x = some ⟨a.cnt + x.cnt, a.sum + x.sum, a.sqsum + x.sqsum⟩ := by
  simp only [Average.aggregate, Option.bind_eq_bind]
  rw [number_of_fits hcnt, Option.bind_some, number_of_fits hsum, Option.bind_some,
    number_of_fits hsqsum, Option.bind_some]

/-- How an `Average` has come about. -/
inductive Part where
  | empty
  | count (p : Part) (val : ℤ)
  | aggregate (p x : Part)

/-- The samples, in some order. -/
def Part.samples : Part → List ℤ
  | .empty => []
  | .count p val => p.samples ++ [val]
  | .aggregate p x => p.samples ++ x.samples

def Part.build : Part → Option Average
  | .empty => some ⟨0, 0, 0⟩
  | .count p val => p.build.bind fun a => a.count o val
  | .aggregate p x => p.build.bind fun a => x.build.bind fun b => a.aggregate o b

end Model

/-- The three numbers of a list of samples. -/
def totals (l : List ℤ) : Average := ⟨l.length, l.sum, sumSq l⟩

/-- They all fit. -/
def Average.Fit (a : Average) : Prop := Fits a.cnt ∧ Fits a.sum ∧ Fits a.sqsum

instance (a : Average) : Decidable a.Fit := inferInstanceAs (Decidable (_ ∧ _))

theorem fit_totals {l : List ℤ} (hlen : (l.length : ℤ) < 2 ^ 63) (hsq : sumSq l < 2 ^ 63) :
    (totals l).Fit := by
  have hsum := abs_le.mp (abs_sum_le l)
  have hpos := sumSq_nonneg l
  refine ⟨⟨?_, hlen⟩, ⟨?_, ?_⟩, ⟨?_, hsq⟩⟩
  · exact le_trans (by norm_num) (Int.natCast_nonneg l.length)
  · change -2 ^ 63 ≤ l.sum
    linarith [hsum.1]
  · exact hsum.2.trans_lt hsq
  · change -2 ^ 63 ≤ sumSq l
    linarith

theorem totals_concat (l : List ℤ) (val : ℤ) :
    totals (l ++ [val]) = ⟨(totals l).cnt + 1, (totals l).sum + val, (totals l).sqsum + val * val⟩ := by
  simp only [totals, List.length_append, List.length_singleton, Nat.cast_add, Nat.cast_one,
    List.sum_append, List.sum_singleton, sumSq_concat]

theorem totals_append (l m : List ℤ) : totals (l ++ m) =
    ⟨(totals l).cnt + (totals m).cnt, (totals l).sum + (totals m).sum,
      (totals l).sqsum + (totals m).sqsum⟩ := by
  simp only [totals, List.length_append, Nat.cast_add, List.sum_append, sumSq_append]

/-- Whatever fits all in all fits in part. -/
theorem fit_part {l m : List ℤ} (h : (totals (l ++ m)).Fit) : (totals l).Fit ∧ (totals m).Fit := by
  obtain ⟨hcnt, -, hsqsum⟩ := h
  rw [totals_append] at hcnt hsqsum
  have hl := sumSq_nonneg l
  have hm := sumSq_nonneg m
  have hcntl := Int.natCast_nonneg l.length
  have hcntm := Int.natCast_nonneg m.length
  simp only [totals] at hcnt hsqsum
  exact ⟨fit_totals (by linarith [hcnt.2]) (by linarith [hsqsum.2]),
    fit_totals (by linarith [hcnt.2]) (by linarith [hsqsum.2])⟩

/-- Whatever the order and the parts: as long as the totals fit, so does all on the way to them. -/
theorem build_eq (o : ℤ → Option ℤ) {p : Part} (h : (totals p.samples).Fit) :
    p.build o = some (totals p.samples) := by
  induction p with
  | empty => rfl
  | count p val ih =>
    rw [Part.samples] at h ⊢
    have hval := (fit_part h).2.2.2
    have hsquare : sumSq [val] = val * val := sumSq_concat [] val ▸ zero_add _
    rw [Part.build, ih (fit_part h).1, Option.bind_some]
    rw [totals_concat] at h ⊢
    obtain ⟨hcnt, hsum, hsqsum⟩ := h
    rw [totals, hsquare] at hval
    exact count_of_fits hval hcnt hsum hsqsum
  | aggregate p x ihp ihx =>
    rw [Part.samples] at h ⊢
    rw [Part.build, ihp (fit_part h).1, Option.bind_some, ihx (fit_part h).2, Option.bind_some]
    rw [totals_append] at h ⊢
    obtain ⟨hcnt, hsum, hsqsum⟩ := h
    exact aggregate_of_fits hcnt hsum hsqsum

theorem cnt_ne_zero {l : List ℤ} (hne : l ≠ []) : (totals l).cnt ≠ 0 :=
  Int.natCast_ne_zero.mpr (List.length_pos_iff.mpr hne).ne'

/-! ### `average` -/

/-- It is at most the sum, so it fits. -/
theorem average_eq (o : ℤ → Option ℤ) {l : List ℤ} (hne : l ≠ []) (hfit : (totals l).Fit) :
    (totals l).average o = some (l.sum.tdiv l.length) := by
  obtain ⟨-, hsum, -⟩ := hfit
  obtain ⟨hlo, hhi⟩ : -2 ^ 63 ≤ l.sum ∧ l.sum < 2 ^ 63 := hsum
  have hlen : (0 : ℤ) < l.length := Int.natCast_pos.mpr (List.length_pos_iff.mpr hne)
  have hquot : Fits (l.sum.tdiv l.length) := by
    rcases le_or_gt 0 l.sum with hpos | hneg
    · have hle := Int.tdiv_le_self (l.length : ℤ) hpos
      have hnonneg := Int.tdiv_nonneg hpos hlen.le
      exact ⟨by linarith, hle.trans_lt hhi⟩
    · have hle := Int.tdiv_le_self (l.length : ℤ) (neg_nonneg.mpr hneg.le)
      have hnonneg := Int.tdiv_nonneg (neg_nonneg.mpr hneg.le) hlen.le
      rw [Int.neg_tdiv] at hle hnonneg
      exact ⟨by linarith, by linarith⟩
  rw [Average.average, if_neg (cnt_ne_zero hne)]
  exact number_of_fits hquot

/-! ### `variance` -/

/-- The quotient that is meant. -/
def quotient (l : List ℤ) : ℤ := (sumSq l - (l.sum * l.sum).tdiv l.length).tdiv l.length

theorem quotient_nonneg {l : List ℤ} (hne : l ≠ []) : 0 ≤ quotient l := by
  have hle := (quotient_le hne).2
  exact Int.tdiv_nonneg (by linarith) (Int.natCast_nonneg _)

/-- The square of a sum fits exactly up to this bound. -/
theorem fits_square_iff (x : ℤ) : Fits (x * x) ↔ |x| ≤ 3037000499 := by
  rw [← abs_mul_abs_self x]
  have hpos := abs_nonneg x
  constructor
  · intro h
    by_contra hlt
    have hlow : 3037000500 ≤ |x| := by omega
    have hsq := mul_le_mul hlow hlow (by norm_num) hpos
    linarith [h.2]
  · intro h
    have hsq := mul_le_mul h h hpos (by norm_num)
    exact ⟨by linarith [mul_nonneg hpos hpos], by linarith⟩

/-- Where the square of the sum fits, so does the rest. -/
theorem radicand_eq (o : ℤ → Option ℤ) {l : List ℤ} (hne : l ≠ []) (hfit : (totals l).Fit)
    (hsum : |l.sum| ≤ 3037000499) : (totals l).radicand o = some (quotient l) := by
  obtain ⟨-, -, -, hsqhi⟩ := hfit
  obtain ⟨hpos, hle⟩ := quotient_le hne
  have hquot := quotient_nonneg hne
  have hdiff : 0 ≤ sumSq l - (l.sum * l.sum).tdiv l.length := by linarith
  have hless : quotient l ≤ sumSq l - (l.sum * l.sum).tdiv l.length := by
    rw [quotient, Int.tdiv_eq_ediv_of_nonneg hdiff]
    exact Int.ediv_le_self _ hdiff
  have hsquare : Fits (l.sum * l.sum) := (fits_square_iff l.sum).mpr hsum
  have hmean : Fits ((l.sum * l.sum).tdiv l.length) := ⟨by linarith, hle.trans_lt hsqhi⟩
  have hrest : Fits (sumSq l - (l.sum * l.sum).tdiv l.length) :=
    ⟨by linarith, (sub_le_self _ hpos).trans_lt hsqhi⟩
  have hlast : Fits (quotient l) := ⟨by linarith, hless.trans_lt hrest.2⟩
  simp only [Average.radicand, totals, Option.bind_eq_bind]
  rw [number_of_fits hsquare, Option.bind_some, number_of_fits hmean, Option.bind_some,
    number_of_fits hrest, Option.bind_some]
  exact number_of_fits hlast

/-- Where it does not, nothing is promised. -/
theorem radicand_none {l : List ℤ} (hsum : ¬ |l.sum| ≤ 3037000499) :
    (totals l).radicand (fun _ => none) = none := by
  have hsquare : ¬ Fits (l.sum * l.sum) := fun h => hsum ((fits_square_iff l.sum).mp h)
  simp only [Average.radicand, totals, Option.bind_eq_bind]
  rw [number_overflow hsquare, Option.bind_none]

/-- MAIN: however the samples have been counted and aggregated, `variance` calls `sqrt` with the quotient
    that is meant, which is not negative, exactly if their sum is small enough; otherwise this rests on
    what comes of an overflow. -/
theorem variance_iff {p : Part} (hne : p.samples ≠ []) (hfit : (totals p.samples).Fit) :
    (∀ o : ℤ → Option ℤ, ∃ a, p.build o = some a ∧ a = totals p.samples ∧ ∃ v,
      (∀ sqrt : ℤ → ℤ, a.variance o sqrt = some (sqrt v)) ∧ a.radicand o = some v ∧
        0 ≤ v ∧ v = (a.sqsum - (a.sum * a.sum).tdiv a.cnt).tdiv a.cnt) ↔
    |p.samples.sum| ≤ 3037000499 := by
  constructor
  · intro h
    by_contra hsum
    obtain ⟨a, -, rfl, v, -, hv, -⟩ := h fun _ => none
    rw [radicand_none hsum] at hv
    cases hv
  · intro hsum o
    have hrad := radicand_eq o hne hfit hsum
    refine ⟨_, build_eq o hfit, rfl, _, fun sqrt => ?_, hrad, quotient_nonneg hne, rfl⟩
    rw [Average.variance, if_neg (cnt_ne_zero hne), hrad, Option.map_some]

/-- Two samples, and one from another part. -/
def three : Part := .aggregate (.count (.count .empty 4) (-2)) (.count .empty 10)

theorem variance_three : |three.samples.sum| ≤ 3037000499 ∧
    ∀ o : ℤ → Option ℤ, ∃ a, three.build o = some a ∧
      ∀ sqrt : ℤ → ℤ, a.variance o sqrt = some (sqrt 24) := by
  have hsum : |three.samples.sum| ≤ 3037000499 := by decide
  have h := (variance_iff (p := three) (by decide) (by decide)).mpr hsum
  refine ⟨hsum, fun o => ?_⟩
  obtain ⟨a, hbuild, rfl, v, hvar, -, -, rfl⟩ := h o
  exact ⟨_, hbuild, hvar⟩

/-- In two's complement the two squares of 2147483647 make for a negative variance. -/
theorem variance_negative : ¬ ∀ {p : Part}, p.samples ≠ [] → (totals p.samples).Fit →
    ∀ o : ℤ → Option ℤ, ∃ a, p.build o = some a ∧ ∃ v, a.radicand o = some v ∧
      0 ≤ v ∧ v = (a.sqsum - (a.sum * a.sum).tdiv a.cnt).tdiv a.cnt := by
  intro h
  obtain ⟨a, hbuild, v, hv, hpos, -⟩ := h (p := .count (.count .empty 2147483647) 2147483647) (by decide)
    (by decide) fun x => some (wrap x)
  have ha : a = ⟨2, 4294967294, 9223372028264841218⟩ := (Option.some.inj hbuild).symm
  rw [ha] at hv
  have hneg : v = -4611686018427387904 := (Option.some.inj hv).symm
  omega

end Libfibre.FredStats
