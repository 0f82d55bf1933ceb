import Mathlib.Data.Int.Notation
import Mathlib.Tactic.Linarith

/-! `Time` (`Basics.h`): a `timespec`, seconds and nanoseconds, both 64-bit signed. Every operation
    goes through `long`, which has no value where the C++ expression overflows.

        nsec sum:   0 ··· 10^9 - 1 │ 10^9 │ 10^9 + 1 ···
        `+`, `+=`:  kept           │ kept │ one second carried

    `-` and `-=` borrow below zero and have no such gap. So a sum is left denormalised exactly when
    the nanoseconds add up to one second; everything else about it is right. -/

namespace Libfibre

/-- The range of `time_t`, `long` and `long long`. -/
def Long (x : ℤ) : Prop := -2 ^ 63 ≤ x ∧ x < 2 ^ 63

instance (x : ℤ) : Decidable (Long x) := inferInstanceAs (Decidable (_ ∧ _))

/-- The result of an operation on `long`, if there is one. -/
def long (x : ℤ) : Option ℤ := if Long x then some x else none

theorem long_eq {x : ℤ} (h : Long x) : long x = some x := if_pos h

theorem long_eq_some_iff {x y : ℤ} : long x = some y ↔ Long x ∧ x = y := by
  rw [long]
  split <;> simp_all

/-- `struct timespec`, whatever its fields are. -/
structure Time where
  tv_sec : ℤ
  tv_nsec : ℤ
  deriving DecidableEq

namespace Time

/-- The nanoseconds of a second. -/
def NSEC : ℤ := 1000000000

/-- C++ division truncates. -/
def fromMS (ms : ℤ) : Option Time := do
  return ⟨ms.tdiv 1000, ← long (ms.tmod 1000 * 1000000)⟩

/-- `toMS`, rounded towards zero. -/
def toMS (t : Time) : Option ℤ := do
  long ((← long (1000 * t.tv_sec)) + t.tv_nsec.tdiv 1000000)

/-- `fromUS`. -/
def fromUS (us : ℤ) : Option Time := do
  return ⟨us.tdiv 1000000, ← long (us.tmod 1000000 * 1000)⟩

/-- `toUS`, rounded towards zero. -/
def toUS (t : Time) : Option ℤ := do
  long ((← long (1000000 * t.tv_sec)) + t.tv_nsec.tdiv 1000)

/-- `fromNS`. -/
def fromNS (ns : ℤ) : Time := ⟨ns.tdiv 1000000000, ns.tmod 1000000000⟩

/-- `toNS`. -/
def toNS (t : Time) : Option ℤ := do
  long ((← long (1000000000 * t.tv_sec)) + t.tv_nsec)

/-- `operator+=`. -/
def addAssign (a t : Time) : Option Time := do
  let tv_sec ← long (a.tv_sec + t.tv_sec)
  let tv_nsec ← long (a.tv_nsec + t.tv_nsec)
  if tv_nsec > NSEC then return ⟨← long (tv_sec + 1), ← long (tv_nsec - NSEC)⟩
  else return ⟨tv_sec, tv_nsec⟩

/-- `operator+`. -/
def add (a t : Time) : Option Time := do
  let v : Time := ⟨← long (a.tv_sec + t.tv_sec), ← long (a.tv_nsec + t.tv_nsec)⟩
  if v.tv_nsec > NSEC then return ⟨← long (v.tv_sec + 1), ← long (v.tv_nsec - NSEC)⟩
  else return v

/-- `operator-=`. -/
def subAssign (a t : Time) : Option Time := do
  let tv_nsec ← long (a.tv_nsec - t.tv_nsec)
  let tv_sec ← long (a.tv_sec - t.tv_sec)
  if tv_nsec < 0 then return ⟨← long (tv_sec - 1), ← long (tv_nsec + NSEC)⟩
  else return ⟨tv_sec, tv_nsec⟩

/-- `operator-`. -/
def sub (a t : Time) : Option Time := do
  let v : Time := ⟨← long (a.tv_sec - t.tv_sec), ← long (a.tv_nsec - t.tv_nsec)⟩
  if v.tv_nsec < 0 then return ⟨← long (v.tv_sec - 1), ← long (v.tv_nsec + NSEC)⟩
  else return v

/-- `operator==`. -/
def eq (a t : Time) : Bool := a.tv_sec == t.tv_sec && a.tv_nsec == t.tv_nsec

/-- `operator<`. -/
def lt (a t : Time) : Bool :=
  if a.tv_sec = t.tv_sec then decide (a.tv_nsec < t.tv_nsec) else decide (a.tv_sec < t.tv_sec)

/-- `operator<=`. -/
def le (a t : Time) : Bool :=
  if a.tv_sec = t.tv_sec then decide (a.tv_nsec ≤ t.tv_nsec) else decide (a.tv_sec ≤ t.tv_sec)

/-- `operator>`. -/
def gt (a t : Time) : Bool :=
  if a.tv_sec = t.tv_sec then decide (a.tv_nsec > t.tv_nsec) else decide (a.tv_sec > t.tv_sec)

/-- `operator>=`. -/
def ge (a t : Time) : Bool :=
  if a.tv_sec = t.tv_sec then decide (a.tv_nsec ≥ t.tv_nsec) else decide (a.tv_sec ≥ t.tv_sec)

/-! ### Normalised times and the instants they stand for -/

/-- What `timespec` asks of its nanoseconds. -/
structure Normal (t : Time) : Prop where
  nonneg : 0 ≤ t.tv_nsec
  lt : t.tv_nsec < NSEC

/-- The instant in nanoseconds, without a bound: `toNS` where that does not overflow. -/
def ns (t : Time) : ℤ := NSEC * t.tv_sec + t.tv_nsec

theorem toNS_eq_some_iff {t : Time} {x : ℤ} :
    t.toNS = some x ↔ Long (NSEC * t.tv_sec) ∧ Long t.ns ∧ x = t.ns := by
  have hmul : ∀ y, long (1000000000 * t.tv_sec) = some y ↔ Long (NSEC * t.tv_sec) ∧
      NSEC * t.tv_sec = y := fun y => long_eq_some_iff
  simp only [toNS, Option.bind_eq_bind, Option.bind_eq_some_iff, hmul, long_eq_some_iff]
  constructor
  · rintro ⟨_, ⟨hl, rfl⟩, hs, rfl⟩
    exact ⟨hl, hs, rfl⟩
  · rintro ⟨hl, hs, rfl⟩
    exact ⟨_, ⟨hl, rfl⟩, hs, rfl⟩

/-- The seconds that `a + b`, `a - b` and `(a + b) - b` compute stay in range. -/
structure SecondsFit (a b : Time) : Prop where
  left : Long a.tv_sec
  sum : Long (a.tv_sec + b.tv_sec)
  diff : Long (a.tv_sec - b.tv_sec)
  carry : NSEC < a.tv_nsec + b.tv_nsec → Long (a.tv_sec + b.tv_sec + 1) ∧ Long (a.tv_sec + 1)
  borrow : a.tv_nsec < b.tv_nsec → Long (a.tv_sec - b.tv_sec - 1)

variable {a b : Time}

/-- The carry at work: it starts above one second. -/
theorem add_eq (ha : a.Normal) (hb : b.Normal) (hfit : SecondsFit a b) :
    a.add b = some (if a.tv_nsec + b.tv_nsec > NSEC
      then ⟨a.tv_sec + b.tv_sec + 1, a.tv_nsec + b.tv_nsec - NSEC⟩
      else ⟨a.tv_sec + b.tv_sec, a.tv_nsec + b.tv_nsec⟩) := by
  have hn : Long (a.tv_nsec + b.tv_nsec) := by
    have := ha.nonneg; have := ha.lt; have := hb.nonneg; have := hb.lt
    simp only [Long, NSEC] at *; omega
  simp only [add, long_eq hfit.sum, long_eq hn, Option.bind_eq_bind, Option.bind_some]
  split
  case isTrue hc =>
    have hs : Long (a.tv_nsec + b.tv_nsec - NSEC) := by simp only [Long, NSEC] at *; omega
    rw [long_eq (hfit.carry hc).1, long_eq hs]
    rfl
  case isFalse => rfl

/-- The borrow at work. The minuend may be the one sum that is not normalised. -/
theorem sub_eq (ha : 0 ≤ a.tv_nsec ∧ a.tv_nsec ≤ NSEC) (hb : b.Normal)
    (hdiff : Long (a.tv_sec - b.tv_sec))
    (hborrow : a.tv_nsec < b.tv_nsec → Long (a.tv_sec - b.tv_sec - 1)) :
    a.sub b = some (if a.tv_nsec - b.tv_nsec < 0
      then ⟨a.tv_sec - b.tv_sec - 1, a.tv_nsec - b.tv_nsec + NSEC⟩
      else ⟨a.tv_sec - b.tv_sec, a.tv_nsec - b.tv_nsec⟩) := by
  obtain ⟨ha0, ha1⟩ := ha
  have hb0 := hb.nonneg
  have hb1 := hb.lt
  have hn : Long (a.tv_nsec - b.tv_nsec) := by simp only [Long, NSEC] at *; omega
  simp only [sub, long_eq hdiff, long_eq hn, Option.bind_eq_bind, Option.bind_some]
  split
  case isTrue hc =>
    have hs : Long (a.tv_nsec - b.tv_nsec + NSEC) := by simp only [Long, NSEC] at *; omega
    rw [long_eq (hborrow (by omega)), long_eq hs]
    rfl
  case isFalse => rfl

/-- The assigning operators compute the same fields in another order. -/
theorem addAssign_eq (a b : Time) : a.addAssign b = a.add b := rfl

theorem subAssign_eq (a b : Time) : a.subAssign b = a.sub b := by
  simp only [subAssign, sub, Option.bind_eq_bind]
  cases long (a.tv_nsec - b.tv_nsec) <;> cases long (a.tv_sec - b.tv_sec) <;> rfl

/-! ### Sums, differences and the order -/

theorem add_ns (ha : a.Normal) (hb : b.Normal) (hfit : SecondsFit a b) :
    ∃ v, a.add b = some v ∧ v.ns = a.ns + b.ns ∧ 0 ≤ v.tv_nsec ∧ v.tv_nsec ≤ NSEC := by
  refine ⟨_, add_eq ha hb hfit, ?_⟩
  have ha0 := ha.nonneg; have ha1 := ha.lt; have hb0 := hb.nonneg; have hb1 := hb.lt
  split <;> simp only [ns, NSEC] at * <;> omega

/-- A sum is normalised unless the nanoseconds add up to one second. -/
theorem add_normal_iff (ha : a.Normal) (hb : b.Normal) (hfit : SecondsFit a b) {v : Time}
    (hv : a.add b = some v) : v.Normal ↔ a.tv_nsec + b.tv_nsec ≠ NSEC := by
  have ha0 := ha.nonneg; have ha1 := ha.lt; have hb0 := hb.nonneg; have hb1 := hb.lt
  rw [add_eq ha hb hfit, Option.some.injEq] at hv
  subst hv
  constructor
  · rintro ⟨h0, h1⟩ hsum
    rw [if_neg (by omega)] at h1
    exact absurd h1 (by simp only [hsum]; omega)
  · intro hne
    split
    case isTrue hc => exact ⟨by simp only; omega, by simp only [NSEC] at *; omega⟩
    case isFalse hc => exact ⟨by simp only; omega, by simp only; omega⟩

/-- The sum of the gap: it stands for the instant of `⟨s + 1, 0⟩` and yet compares below it. -/
theorem add_denormal (ha : a.Normal) (hb : b.Normal) (hfit : SecondsFit a b)
    (hsum : a.tv_nsec + b.tv_nsec = NSEC) :
    ∃ v, a.add b = some v ∧ v.ns = ns ⟨v.tv_sec + 1, 0⟩ ∧ v.lt ⟨v.tv_sec + 1, 0⟩ = true := by
  refine ⟨⟨a.tv_sec + b.tv_sec, NSEC⟩, ?_, ?_, ?_⟩
  · rw [add_eq ha hb hfit, if_neg (by omega), hsum]
  · simp only [ns, NSEC]; omega
  · simp [lt]

theorem add_sub_cancel (ha : a.Normal) (hb : b.Normal) (hfit : SecondsFit a b) {v : Time}
    (hv : a.add b = some v) : v.sub b = some a := by
  obtain ⟨w, hw, _, hrange⟩ := add_ns ha hb hfit
  obtain rfl : w = v := Option.some.inj (hw.symm.trans hv)
  have ha0 := ha.nonneg; have ha1 := ha.lt; have hb0 := hb.nonneg; have hb1 := hb.lt
  have hleft := hfit.left
  have hcarry := hfit.carry
  rw [add_eq ha hb hfit, Option.some.injEq] at hv
  have hsec : w.tv_sec - b.tv_sec = a.tv_sec ∧ w.tv_nsec - b.tv_nsec = a.tv_nsec ∨
      NSEC < a.tv_nsec + b.tv_nsec ∧ w.tv_sec - b.tv_sec - 1 = a.tv_sec ∧
        w.tv_nsec - b.tv_nsec + NSEC = a.tv_nsec := by
    subst hv
    split
    case isTrue hc => exact .inr ⟨hc, by simp only; omega, by simp only; omega⟩
    case isFalse => exact .inl ⟨by simp only; omega, by simp only; omega⟩
  rcases hsec with ⟨hs, hn⟩ | ⟨hc, hs, hn⟩
  · rw [sub_eq hrange hb (hs ▸ hleft) (by omega), if_neg (by omega), hs, hn]
  · have hdiff : Long (w.tv_sec - b.tv_sec) := by
      rw [show w.tv_sec - b.tv_sec = a.tv_sec + 1 by omega]
      exact (hcarry hc).2
    rw [sub_eq hrange hb hdiff (fun _ => hs ▸ hleft), if_pos (by omega), hs, hn]

theorem sub_ns (ha : a.Normal) (hb : b.Normal) (hfit : SecondsFit a b) :
    ∃ v, a.sub b = some v ∧ v.Normal ∧ v.ns = a.ns - b.ns := by
  have ha0 := ha.nonneg; have ha1 := ha.lt; have hb0 := hb.nonneg; have hb1 := hb.lt
  refine ⟨_, sub_eq ⟨ha0, ha1.le⟩ hb hfit.diff hfit.borrow, ?_⟩
  split
  case isTrue hc =>
    refine ⟨⟨?_, ?_⟩, ?_⟩ <;> simp only [ns, NSEC] at * <;> omega
  case isFalse hc =>
    refine ⟨⟨?_, ?_⟩, ?_⟩ <;> simp only [ns, NSEC] at * <;> omega

/-- Normalised times are ordered first by their seconds, then by their nanoseconds. -/
theorem ns_lt_iff (ha : a.Normal) (hb : b.Normal) :
    a.ns < b.ns ↔ a.tv_sec < b.tv_sec ∨ a.tv_sec = b.tv_sec ∧ a.tv_nsec < b.tv_nsec := by
  have ha0 := ha.nonneg; have ha1 := ha.lt; have hb0 := hb.nonneg; have hb1 := hb.lt
  simp only [ns, NSEC] at *
  omega

theorem lt_iff (ha : a.Normal) (hb : b.Normal) : a.lt b = true ↔ a.ns < b.ns := by
  rw [ns_lt_iff ha hb, lt]
  split <;> simp <;> omega

theorem gt_iff (ha : a.Normal) (hb : b.Normal) : a.gt b = true ↔ a.ns > b.ns := by
  rw [gt_iff_lt, ns_lt_iff hb ha, gt]
  split <;> simp <;> omega

theorem le_iff (ha : a.Normal) (hb : b.Normal) : a.le b = true ↔ a.ns ≤ b.ns := by
  rw [← not_lt, ns_lt_iff hb ha, le]
  split <;> simp <;> omega

theorem ge_iff (ha : a.Normal) (hb : b.Normal) : a.ge b = true ↔ a.ns ≥ b.ns := by
  rw [ge_iff_le, ← not_lt, ns_lt_iff ha hb, ge]
  split <;> simp <;> omega

theorem eq_iff (ha : a.Normal) (hb : b.Normal) : a.eq b = true ↔ a.ns = b.ns := by
  have hab := ns_lt_iff ha hb
  have hba := ns_lt_iff hb ha
  simp only [eq, Bool.and_eq_true, beq_iff_eq]
  constructor
  · rintro ⟨hs, hn⟩
    rw [ns, ns, hs, hn]
  · intro heq
    omega

/-! ### Conversions -/

/-- `units` to the second: what all three conversions do, with `scale` nanoseconds to a unit. -/
theorem convert {units scale n : ℤ} (hu : 0 < units) (hscale : units * scale = NSEC)
    (hn : 0 ≤ n) : 0 ≤ n.tmod units * scale ∧ n.tmod units * scale < NSEC ∧
      units * n.tdiv units + (n.tmod units * scale).tdiv scale = n := by
  have hspos : 0 < scale := by
    by_contra hle
    have := mul_nonpos_of_nonneg_of_nonpos hu.le (not_lt.mp hle)
    rw [hscale] at this
    exact absurd this (by decide)
  have h0 : 0 ≤ n.tmod units := Int.tmod_nonneg _ hn
  have h1 : n.tmod units < units := Int.tmod_lt_of_pos _ hu
  refine ⟨mul_nonneg h0 hspos.le, ?_, ?_⟩
  · rw [← hscale]
    exact mul_lt_mul_of_pos_right h1 hspos
  · rw [Int.mul_tdiv_cancel _ hspos.ne', Int.mul_tdiv_add_tmod]

/-- A count of milliseconds, microseconds or nanoseconds comes back from its `Time`. -/
structure RoundTrip (n : ℤ) : Prop where
  ms : ∃ t, fromMS n = some t ∧ t.Normal ∧ t.toMS = some n
  us : ∃ t, fromUS n = some t ∧ t.Normal ∧ t.toUS = some n
  ns : (fromNS n).Normal ∧ (fromNS n).toNS = some n

theorem roundTrip {n : ℤ} (hn : 0 ≤ n) (hlong : Long n) : RoundTrip n := by
  -- the seconds alone are at most `n`
  have hlow : ∀ units : ℤ, 0 < units → Long (units * n.tdiv units) := by
    intro units hu
    have hmul := Int.mul_tdiv_add_tmod n units
    have h0 := Int.tmod_nonneg units hn
    have hdiv : 0 ≤ units * n.tdiv units := mul_nonneg hu.le (Int.tdiv_nonneg hn hu.le)
    simp only [Long] at *
    omega
  constructor
  · obtain ⟨h0, h1, hsum⟩ := convert (by decide : (0 : ℤ) < 1000)
      (rfl : (1000 : ℤ) * 1000000 = NSEC) hn
    refine ⟨⟨n.tdiv 1000, n.tmod 1000 * 1000000⟩, ?_, ⟨h0, h1⟩, ?_⟩
    · rw [fromMS, long_eq (by simp only [Long, NSEC] at *; omega)]
      rfl
    · simp only [toMS, Option.bind_eq_bind, long_eq (hlow 1000 (by decide)), Option.bind_some]
      rw [hsum, long_eq hlong]
  · obtain ⟨h0, h1, hsum⟩ := convert (by decide : (0 : ℤ) < 1000000)
      (rfl : (1000000 : ℤ) * 1000 = NSEC) hn
    refine ⟨⟨n.tdiv 1000000, n.tmod 1000000 * 1000⟩, ?_, ⟨h0, h1⟩, ?_⟩
    · rw [fromUS, long_eq (by simp only [Long, NSEC] at *; omega)]
      rfl
    · simp only [toUS, Option.bind_eq_bind, long_eq (hlow 1000000 (by decide)), Option.bind_some]
      rw [hsum, long_eq hlong]
  · refine ⟨⟨Int.tmod_nonneg _ hn, Int.tmod_lt_of_pos _ (by decide)⟩, ?_⟩
    simp only [fromNS, toNS, Option.bind_eq_bind, long_eq (hlow 1000000000 (by decide)),
      Option.bind_some]
    rw [Int.mul_tdiv_add_tmod, long_eq hlong]

/-- What is expected of a pair of normalised times. -/
structure Exact (a b : Time) : Prop where
  add : ∃ v, a.add b = some v ∧ a.addAssign b = some v ∧ v.Normal ∧ v.ns = a.ns + b.ns ∧
    v.sub b = some a
  sub : ∃ v, a.sub b = some v ∧ a.subAssign b = some v ∧ v.Normal ∧ v.ns = a.ns - b.ns
  eq : a.eq b = true ↔ a.ns = b.ns
  lt : a.lt b = true ↔ a.ns < b.ns
  le : a.le b = true ↔ a.ns ≤ b.ns
  gt : a.gt b = true ↔ a.ns > b.ns
  ge : a.ge b = true ↔ a.ns ≥ b.ns

/-- `Time` is exact, normalised and ordered, but for sums whose nanoseconds make one second. -/
theorem time_arithmetic (ha : a.Normal) (hb : b.Normal) (hfit : SecondsFit a b) :
    ((∀ (t : Time) (x : ℤ), t.toNS = some x ↔ Long (NSEC * t.tv_sec) ∧ Long t.ns ∧ x = t.ns) ∧
      Exact a b ∧ ∀ n, 0 ≤ n → Long n → RoundTrip n) ↔ a.tv_nsec + b.tv_nsec ≠ NSEC := by
  obtain ⟨v, hv, hns, -⟩ := add_ns ha hb hfit
  constructor
  · rintro ⟨-, ⟨⟨w, hw, -, hnormal, -⟩, -⟩, -⟩
    exact (add_normal_iff ha hb hfit hw).mp hnormal
  · intro hne
    refine ⟨fun t x => toNS_eq_some_iff, ?_, fun n => roundTrip⟩
    obtain ⟨d, hd, hdn, hdns⟩ := sub_ns ha hb hfit
    exact {
      add := ⟨v, hv, (addAssign_eq a b).trans hv, (add_normal_iff ha hb hfit hv).mpr hne, hns,
        add_sub_cancel ha hb hfit hv⟩
      sub := ⟨d, hd, (subAssign_eq a b).trans hd, hdn, hdns⟩
      eq := eq_iff ha hb
      lt := lt_iff ha hb
      le := le_iff ha hb
      gt := gt_iff ha hb
      ge := ge_iff ha hb }

theorem time_arithmetic_holds : Exact ⟨1, 600000000⟩ ⟨2, 500000000⟩ :=
  ((time_arithmetic (a := ⟨1, 600000000⟩) (b := ⟨2, 500000000⟩) ⟨by decide, by decide⟩
    ⟨by decide, by decide⟩ ⟨by decide, by decide, by decide, by decide, by decide⟩).mpr
    (by decide)).2.1

/-- 999999999 ns and 1 ns: the sum is left at `⟨0, 10^9⟩`. -/
theorem time_sum_denormal : ¬ ∀ a b : Time, a.Normal → b.Normal → SecondsFit a b →
    Exact a b := by
  intro h
  obtain ⟨v, hv, -, hnormal, -⟩ := (h ⟨0, 999999999⟩ ⟨0, 1⟩ ⟨by decide, by decide⟩
    ⟨by decide, by decide⟩ ⟨by decide, by decide, by decide, by decide, by decide⟩).add
  have hsum : add ⟨0, 999999999⟩ ⟨0, 1⟩ = some ⟨0, 1000000000⟩ := by decide
  rw [hsum, Option.some.injEq] at hv
  subst hv
  exact absurd hnormal.lt (by decide)

end Time
end Libfibre
