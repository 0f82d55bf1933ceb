import Libfibre.HierarchicalBitmap.FindNext
import Mathlib.Order.Interval.Set.Basic
import Mathlib.Order.Lattice.Nat

/-! `findrange`: the first run of set indices from `start` on. Its three loops together go to the end of
    the run, whatever part of it is covered by which:

        │· · 1 1│1 1 1 1│1 1 1 1│1 1 · ·│
             ─▶ rest     ─▶ buckets ─▶ last

    The cut at `max` assumes that the run starts below it. A run that starts above makes the
    difference wrap around, and a run that `findnext` overlooks is not found here either. -/

namespace Libfibre.HierarchicalBitmap
open Search

variable {s : Shape} {h : Bitmaps s}

/-- All of `a`, …, `e - 1` are set. -/
def Run (S : Set ℕ) (a e : ℕ) : Prop := a ≤ e ∧ Set.Ico a e ⊆ S

theorem Run.refl (S : Set ℕ) (a : ℕ) : Run S a a := ⟨le_rfl, by simp⟩

theorem Run.trans {S : Set ℕ} {a b c : ℕ} (h : Run S a b) (h' : Run S b c) : Run S a c := by
  refine ⟨h.1.trans h'.1, ?_⟩
  rw [← Set.Ico_union_Ico_eq_Ico h.1 h'.1]
  exact Set.union_subset h.2 h'.2

theorem Run.step {S : Set ℕ} {a : ℕ} (h : a ∈ S) : Run S a (a + 1) := by
  refine ⟨Nat.le_succ a, fun j hj => ?_⟩
  rwa [le_antisymm (Nat.lt_succ_iff.mp hj.2) hj.1]

/-- A run up to an index that is not set ends there. -/
theorem Run.isLeast {S : Set ℕ} {a e : ℕ} (h : Run S a e) (he : e ∉ S) :
    IsLeast {j | a ≤ j ∧ j ∉ S} e := by
  refine ⟨⟨h.1, he⟩, fun j hj => ?_⟩
  by_contra hlt
  exact hj.2 (h.2 ⟨hj.1, Nat.lt_of_not_le hlt⟩)

/-! ### The loops -/

/-- The first loop stops at a bucket or at a gap. -/
theorem scanBucket_spec {e : ℕ} (he : e % s.B ≠ 0 → Inside s e) :
    ∃ e', scanBucket h e = some e' ∧ Run (level h 0) e e' ∧ (e' % s.B = 0 ∨ e' ∉ level h 0) := by
  rw [scanBucket]
  split
  case isTrue h0 => exact ⟨e, rfl, .refl _ e, .inl h0⟩
  case isFalse h0 =>
    obtain ⟨t, ht, hiff⟩ := test_spec h (he h0)
    rw [ht, Option.bind_some]
    split
    case isTrue hset =>
      have hmem := hiff.mp hset
      have hnext : (e + 1) % s.B ≠ 0 → Inside s (e + 1) := by
        intro hne
        rw [Inside, Nat.succ_div_of_not_dvd (fun hdvd => hne (Nat.mod_eq_zero_of_dvd hdvd))]
        exact hmem.1
      obtain ⟨e', heq, hrun, hstop⟩ := scanBucket_spec hnext
      exact ⟨e', heq, (Run.step hmem).trans hrun, hstop⟩
    case isFalse hclear => exact ⟨e, rfl, .refl _ e, .inr fun hmem => hclear (hiff.mpr hmem)⟩
termination_by (s.B - e % s.B) % s.B
decreasing_by exact bucket_rest s.B_pos ‹_›

/-- A full bucket is a run. -/
theorem run_bucket {e : ℕ} (hin : Inside s e) (hfull : (h 0 (e / s.B)).full = true)
    (he : e % s.B = 0) : Run (level h 0) e (e + s.B) := by
  refine ⟨Nat.le_add_right e s.B, fun j hj => ?_⟩
  have hpos := Nat.div_add_mod' e s.B
  rw [he, Nat.add_zero] at hpos
  have hdiv : j / s.B = e / s.B := by
    have hj1 := Nat.div_le_div_right (c := s.B) hj.1
    have hj2 : j < (e / s.B + 1) * s.B := by rw [Nat.succ_mul, hpos]; exact hj.2
    have hj3 := (Nat.div_lt_iff_lt_mul s.B_pos).mpr hj2
    omega
  rw [← mem_block hin hdiv]
  exact (BitmapB.full_iff _).mp hfull _ (s.valid_mod j)

/-- The second loop keeps to buckets; at a gap it does nothing. -/
theorem skipBuckets_spec {e : ℕ} (he : e % s.B = 0 ∨ e ∉ level h 0) :
    ∃ e', skipBuckets h e = some e' ∧ Run (level h 0) e e' := by
  rw [skipBuckets]
  split
  case isTrue hin =>
    rw [blockfull, block_eq h s.Levels_pos hin, Option.map_some, Option.bind_some]
    split
    case isTrue hfull =>
      have hmem : e ∈ level h 0 :=
        (mem_block hin rfl).mp ((BitmapB.full_iff _).mp hfull _ (s.valid_mod e))
      have h0 := he.resolve_right (not_not.mpr hmem)
      obtain ⟨e', heq, hrun⟩ := skipBuckets_spec (e := e + s.B)
        (.inl (by rw [Nat.add_mod_right, h0]))
      exact ⟨e', heq, (run_bucket hin hfull h0).trans hrun⟩
    case isFalse => exact ⟨e, rfl, .refl _ e⟩
  case isFalse => exact ⟨e, rfl, .refl _ e⟩
termination_by s.maxBucketCount - e / s.B
decreasing_by
  rw [Nat.add_div_right _ s.B_pos]
  omega

/-- The third loop stops at a gap. -/
theorem scanLast_spec (h : Bitmaps s) (e : ℕ) :
    ∃ e', scanLast h e = some e' ∧ Run (level h 0) e e' ∧ e' ∉ level h 0 := by
  rw [scanLast]
  split
  case isTrue hin =>
    obtain ⟨t, ht, hiff⟩ := test_spec h hin
    rw [ht, Option.bind_some]
    split
    case isTrue hset =>
      obtain ⟨e', heq, hrun, hstop⟩ := scanLast_spec h (e + 1)
      exact ⟨e', heq, (Run.step (hiff.mp hset)).trans hrun, hstop⟩
    case isFalse hclear => exact ⟨e, rfl, .refl _ e, fun hmem => hclear (hiff.mpr hmem)⟩
  case isFalse hout => exact ⟨e, rfl, .refl _ e, fun hmem => hout hmem.1⟩
termination_by s.maxBucketCount * s.B - e
decreasing_by
  have := (Nat.div_lt_iff_lt_mul s.B_pos).mp ‹e / s.B < s.maxBucketCount›
  omega

/-! ### The result -/

/-- What is asked of `findrange`: the first run from `start` on, cut at `max`. -/
structure FirstRun (S : Set ℕ) (start max start' result : ℕ) : Prop where
  none : (∀ j ∈ S, j < start) → result = 0
  first : ∀ f, IsLeast {j | start ≤ j ∧ j ∈ S} f →
    start' = f ∧ ∃ e, IsLeast {j | f ≤ j ∧ j ∉ S} e ∧ result = min e max - f
  within : 0 < result → start' + result ≤ max

/-- The first run lies beyond `max`. -/
def Beyond (S : Set ℕ) (start max : ℕ) : Prop :=
  (∃ j ∈ S, start ≤ j) ∧ ∀ j ∈ S, start ≤ j → max < j

/-- After a find the loops measure its run. -/
theorem findrange_of_mem {start f : ℕ} (max : ℕ) (hf : findnext h start = some f) (hmem : f ∈ level h 0) :
    ∃ e, IsLeast {j | f ≤ j ∧ j ∉ level h 0} e ∧ f < e ∧ e ≤ limit ∧
      findrange h start max = some (f, (min e max + 2 ^ 64 - f) % 2 ^ 64) := by
  have hnext : (f + 1) % s.B ≠ 0 → Inside s (f + 1) := by
    intro hne
    rw [Inside, Nat.succ_div_of_not_dvd (fun hdvd => hne (Nat.mod_eq_zero_of_dvd hdvd))]
    exact hmem.1
  obtain ⟨e₁, heq₁, hrun₁, hstop₁⟩ := scanBucket_spec hnext
  obtain ⟨e₂, heq₂, hrun₂⟩ := skipBuckets_spec hstop₁
  obtain ⟨e, heq, hrun, hstop⟩ := scanLast_spec h e₂
  have hall := ((Run.step hmem).trans hrun₁).trans (hrun₂.trans hrun)
  have hfe : f < e := (hrun₁.trans (hrun₂.trans hrun)).1
  have hlast : e - 1 ∈ level h 0 := hall.2 ⟨by omega, by omega⟩
  have hlimit := lt_limit hlast
  refine ⟨e, hall.isLeast hstop, hfe, by omega, ?_⟩
  have hmin : (if e > max then max else e) = min e max := by split <;> omega
  have hne : f ≠ limit := (lt_limit hmem).ne
  simp only [findrange, hf, Option.bind_some, if_neg hne, heq₁, heq₂, heq, hmin]

theorem findrange_iff (hsum : Summary h) {start : ℕ} (hstart : Inside s start) (max : ℕ) :
    ∃ start' result, findrange h start max = some (start', result) ∧
      (FirstRun (level h 0) start max start' result ↔
        ¬ Overlooked s (level h 0) start ∧ ¬ Beyond (level h 0) start max) := by
  obtain ⟨r, hr, hends⟩ := findnext_spec hsum hstart
  have hiff := ends_iff hends
  by_cases hfound : IsLeast (ahead h start 0) r
  · -- something is found
    have hseen := hiff.mp (.of_isLeast hfound)
    obtain ⟨e, he, hre, helimit, heq⟩ := findrange_of_mem max hr hfound.1.2
    refine ⟨r, _, heq, ?_⟩
    rw [and_iff_right hseen]
    rw [limit] at helimit
    constructor
    · rintro ⟨-, hfirst, -⟩ ⟨-, hbeyond⟩
      obtain ⟨-, e', -, hres⟩ := hfirst r hfound
      have := hbeyond r hfound.1.2 hfound.1.1
      omega
    · intro hnear
      have hle : r ≤ max := by
        by_contra hlt
        refine hnear ⟨⟨r, hfound.1.2, hfound.1.1⟩, fun j hj hle => ?_⟩
        exact Nat.lt_of_lt_of_le (Nat.lt_of_not_le hlt) (hfound.2 ⟨hle, hj⟩)
      have hres : (min e max + 2 ^ 64 - r) % 2 ^ 64 = min e max - r := by omega
      rw [hres]
      refine ⟨fun hnone => ?_, fun f hf => ?_, fun _ => by omega⟩
      · exact absurd (hnone r hfound.1.2) (Nat.not_lt.mpr hfound.1.1)
      · obtain rfl := hfound.unique hf
        exact ⟨rfl, e, he, rfl⟩
  · -- `findnext` has given up, or there is nothing
    have hlim : r = limit := by
      cases hends with
      | found l least inner here => exact absurd least hfound
      | gaveUp l limit outer behind => exact limit
    subst hlim
    refine ⟨limit, 0, by rw [findrange, hr, Option.bind_some, if_pos rfl], ?_⟩
    by_cases hnone : ahead h start 0 = ∅
    · have hno : ¬ ∃ j ∈ level h 0, start ≤ j := by
        rintro ⟨j, hj, hle⟩
        exact Set.eq_empty_iff_forall_notMem.mp hnone j ⟨hle, hj⟩
      refine iff_of_true ⟨fun _ => rfl, fun f hf => ?_, fun hpos => absurd hpos (lt_irrefl 0)⟩ ?_
      · exact absurd ⟨f, hf.1.2, hf.1.1⟩ hno
      · exact ⟨hiff.mp (.inr ⟨hnone, rfl⟩), fun hbeyond => hno hbeyond.1⟩
    · refine iff_of_false (fun hrun => ?_) fun hboth => ?_
      · -- the first index is below `limit`, where `start` was left
        have hne := Set.nonempty_iff_ne_empty.mpr hnone
        have hleast : IsLeast (ahead h start 0) (sInf (ahead h start 0)) :=
          ⟨Nat.sInf_mem hne, fun _ => Nat.sInf_le⟩
        have heq := (hrun.first _ hleast).1
        exact absurd (lt_limit hleast.1.2) (by rw [← heq]; exact lt_irrefl _)
      · rcases hiff.mpr hboth.1 with hleast | ⟨he, -⟩
        · exact hfound hleast
        · exact hnone he

/-- `findrange` always returns, and returns the first run from `start` on, cut at `max`, unless
    `findnext` overlooks it or it begins beyond `max`. -/
theorem findrange_first_run (s : Shape) (ops : List Op) (start max : ℕ)
    (hops : ∀ op ∈ ops, Inside s op.idx) (hstart : Inside s start) :
    ∃ h, run s ops = some h ∧ ∃ start' result, findrange h start max = some (start', result) ∧
      (FirstRun (ops.foldl (Op.apply s.B) ∅) start max start' result ↔
        ¬ Overlooked s (ops.foldl (Op.apply s.B) ∅) start ∧
          ¬ Beyond (ops.foldl (Op.apply s.B) ∅) start max) := by
  obtain ⟨h, hrun, hsum, hlevel⟩ := run_spec s ops hops
  rw [← hlevel]
  exact ⟨h, hrun, findrange_iff hsum hstart max⟩

/-- A block and the first index of the next one are one run. -/
theorem findrange_first_run_sample : ∃ h, run sample [.blockset 64, .set 128] = some h ∧
    findrange h 10 200 = some (64, 65) := by
  obtain ⟨h, hrun, start', result, heq, hiff⟩ :=
    findrange_first_run sample [.blockset 64, .set 128] 10 200 (by decide) (by decide)
  have hset : ∀ j, j ∈ [Op.blockset 64, .set 128].foldl (Op.apply sample.B) ∅ ↔
      j = 128 ∨ j / 64 = 1 := fun j => by
    simp [Op.apply, show sample.B = 64 from rfl]
  have hfirst := hiff.mpr ⟨fun hover => by
    obtain ⟨l, hl, -, hle⟩ := hover.le ((hset 64).mpr (.inr rfl)) (by decide)
    have hpow : sample.B ^ 2 ≤ sample.B ^ (l + 1) :=
      Nat.pow_le_pow_right sample.B_pos (Nat.succ_le_succ hl)
    exact absurd (hpow.trans hle) (by decide), fun hbeyond =>
    absurd (hbeyond.2 64 ((hset 64).mpr (.inr rfl)) (by decide)) (by decide)⟩
  have hleast : IsLeast {j | 10 ≤ j ∧ j ∈ [Op.blockset 64, .set 128].foldl (Op.apply sample.B) ∅}
      64 := by
    refine ⟨⟨by decide, (hset 64).mpr (.inr rfl)⟩, ?_⟩
    rintro j ⟨-, hj⟩
    have hmem := (hset j).mp hj
    omega
  obtain ⟨rfl, e, hend, rfl⟩ := hfirst.first 64 hleast
  have hend' : IsLeast {j | 64 ≤ j ∧ j ∉ [Op.blockset 64, .set 128].foldl (Op.apply sample.B) ∅}
      129 := by
    refine ⟨⟨by decide, fun h129 => absurd ((hset 129).mp h129) (by decide)⟩, ?_⟩
    rintro j ⟨hj, hout⟩
    have hno : ¬ (j = 128 ∨ j / 64 = 1) := fun hmem => hout ((hset j).mpr hmem)
    omega
  rw [hend.unique hend'] at heq
  exact ⟨h, hrun, heq⟩

/-- Only index 10 is set, and the search is for `[0, 5)`: the result is `5 - 10` in 64 bits. -/
theorem findrange_wraps : ¬ ∀ (s : Shape) (ops : List Op) (start max : ℕ),
    (∀ op ∈ ops, Inside s op.idx) → start < s.bitcount → start ≤ max →
    max ≤ s.B * s.blocks 0 → ∃ h start' result, run s ops = some h ∧
      findrange h start max = some (start', result) ∧
      FirstRun (ops.foldl (Op.apply s.B) ∅) start max start' result := by
  intro hall
  obtain ⟨h, start', result, hrun, heq, hfirst⟩ :=
    hall sample [.set 10] 0 5 (by decide) (by decide) (by decide) (by decide)
  obtain ⟨hsum, hlevel⟩ := run_sound (by decide) hrun
  obtain ⟨start₁, result₁, heq₁, hiff⟩ := findrange_iff hsum (by decide : Inside sample 0) 5
  obtain ⟨rfl, rfl⟩ := Prod.mk.inj (Option.some.inj (heq.symm.trans heq₁))
  rw [← hlevel] at hfirst
  refine (hiff.mp hfirst).2 ?_
  rw [hlevel]
  refine ⟨⟨10, .inl rfl, by decide⟩, ?_⟩
  rintro j (rfl | hj) -
  · decide
  · exact absurd hj (Set.notMem_empty j)

end Libfibre.HierarchicalBitmap
