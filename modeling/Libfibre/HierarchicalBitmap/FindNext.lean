import Libfibre.HierarchicalBitmap.Summary

/-! `findnext`: up to the first level where something is set ahead of the position, and down again.
    `mbc` is to be the number of blocks on the current level. It is the number on level 0 divided by
    `B` once for each level, rounded down, while a partial last block is a block as well:

        level 0   129 blocks        mbc 129
        level 1     3 blocks        mbc   2      the third is taken for the end
        level 2     1 block

    So a walk that arrives in front of such a block gives up. Where that does not happen, and always
    on the way down, the answer is the least index ahead. -/

namespace Libfibre.HierarchicalBitmap
open Search

variable {s : Shape} {h : Bitmaps s}

/-- Where the walk from `idx` continues on level `l`. -/
def climb (B idx : ℕ) : ℕ → ℕ
  | 0 => idx
  | l + 1 => climb B idx l / B + 1

/-- What is set on level `l` ahead of the walk. -/
def ahead (h : Bitmaps s) (idx l : ℕ) : Set ℕ := {j | climb s.B idx l ≤ j ∧ j ∈ level h l}

/-- Nothing was ahead in the blocks that the walk has been through below level `l`. -/
def Passed (h : Bitmaps s) (idx l : ℕ) : Prop :=
  ∀ k < l, ahead h idx (k + 1) = (· / s.B) '' ahead h idx k

/-- The scan of a block from `r` on, as indices of its level. -/
theorem block_findnext {l i : ℕ} (hi : i < s.blocks l) (r : ℕ) :
    FirstOr {k | r ≤ k ∧ k < s.B ∧ i * s.B + k ∈ level h l} s.B ((h l i).findnext r true) := by
  have hfind := (h l i).findnext_firstOr r true
  simp only [bit_level hi] at hfind
  rwa [s.words_B] at hfind

/-- A find in the current block is the first index ahead. -/
theorem isLeast_ahead {idx l k : ℕ}
    (hk : IsLeast {k | climb s.B idx l % s.B ≤ k ∧ k < s.B ∧
      climb s.B idx l / s.B * s.B + k ∈ level h l} k) :
    IsLeast (ahead h idx l) (climb s.B idx l / s.B * s.B + k) := by
  have hpos := Nat.div_add_mod' (climb s.B idx l) s.B
  obtain ⟨⟨hlow, hB, hmem⟩, hmin⟩ := hk
  have hdiv := (s.div_mod_B (climb s.B idx l / s.B) hB).1
  have hk' : climb s.B idx l / s.B * s.B + k ∈ ahead h idx l := ⟨by omega, hmem⟩
  have hmono : Monotone (· / s.B) := fun _ _ hle => Nat.div_le_div_right hle
  refine isLeast_of_fiber (b := climb s.B idx l / s.B) hmono ⟨⟨_, hk', hdiv⟩, ?_⟩ ⟨⟨hk', hdiv⟩, ?_⟩
  · rintro _ ⟨j, hj, rfl⟩
    exact Nat.div_le_div_right hj.1
  · rintro j ⟨⟨hle, hj⟩, hjdiv⟩
    have hjpos := Nat.div_add_mod' j s.B
    rw [hjdiv] at hjpos
    have := hmin (a := j % s.B) ⟨by omega, Nat.mod_lt j s.B_pos, by rwa [hjpos]⟩
    omega

/-- Behind a block scanned in vain. -/
theorem climb_le_of_none {idx l j : ℕ}
    (hnone : {k | climb s.B idx l % s.B ≤ k ∧ k < s.B ∧
      climb s.B idx l / s.B * s.B + k ∈ level h l} = ∅) (hj : j ∈ ahead h idx l) :
    climb s.B idx (l + 1) ≤ j / s.B := by
  have hpos := Nat.div_add_mod' (climb s.B idx l) s.B
  have hjpos := Nat.div_add_mod' j s.B
  have hle := Nat.div_le_div_right (c := s.B) hj.1
  rcases hle.eq_or_lt with heq | hlt
  · refine absurd (Set.eq_empty_iff_forall_notMem.mp hnone (j % s.B)) (not_not.mpr ?_)
    rw [← heq] at hjpos
    have := hj.1
    exact ⟨by omega, Nat.mod_lt j s.B_pos, by rw [hjpos]; exact hj.2⟩
  · exact hlt

/-- A block scanned in vain is passed. -/
theorem passed_block {idx l : ℕ} (hl : level h (l + 1) = (· / s.B) '' level h l)
    (hnone : {k | climb s.B idx l % s.B ≤ k ∧ k < s.B ∧
      climb s.B idx l / s.B * s.B + k ∈ level h l} = ∅) :
    ahead h idx (l + 1) = (· / s.B) '' ahead h idx l := by
  ext i
  constructor
  · rintro ⟨hle, hi⟩
    rw [hl] at hi
    obtain ⟨j, hj, rfl⟩ := hi
    refine ⟨j, ⟨?_, hj⟩, rfl⟩
    by_contra hlt
    have := Nat.div_le_div_right (c := s.B) (Nat.le_of_not_le hlt)
    simp only [climb] at hle
    omega
  · rintro ⟨j, hj, rfl⟩
    exact ⟨climb_le_of_none hnone hj, by rw [hl]; exact ⟨j, hj.2, rfl⟩⟩

theorem Passed.mono {idx l k : ℕ} (hp : Passed h idx l) (hk : k ≤ l) : Passed h idx k :=
  fun i hi => hp i (Nat.lt_of_lt_of_le hi hk)

theorem Passed.succ {idx l : ℕ} (hp : Passed h idx l)
    (hl : ahead h idx (l + 1) = (· / s.B) '' ahead h idx l) : Passed h idx (l + 1) := by
  intro k hk
  rcases Nat.lt_succ_iff_lt_or_eq.mp hk with hlt | rfl
  · exact hp k hlt
  · exact hl

/-- What is ahead on a level that has been reached is what is ahead below. -/
theorem ahead_eq_image {idx l : ℕ} (hp : Passed h idx l) :
    ahead h idx l = (· / s.B ^ l) '' ahead h idx 0 := by
  induction l with
  | zero => simp
  | succ l ih =>
    rw [hp l (Nat.lt_succ_self l), ih (hp.mono (Nat.le_succ l)), Set.image_image]
    simp only [Nat.div_div_eq_div_mul, Nat.pow_succ]

/-! ### The way down -/

/-- Going down, the block is not scanned in vain, and from its first bit on. -/
theorem descend_block {idx l x : ℕ} (hclimb : climb s.B idx (l + 1) ≤ x)
    (hx : IsLeast ((· / s.B) '' ahead h idx l) x) :
    x < s.blocks l ∧ (h l x).findnext 0 true ≠ s.B ∧
      IsLeast (ahead h idx l) (x * s.B + (h l x).findnext 0 true) := by
  obtain ⟨j, hj, hjx⟩ := hx.1
  simp only at hjx
  have hib : x < s.blocks l := hjx ▸ hj.2.1
  have hfind := block_findnext (h := h) hib 0
  have hne : (h l x).findnext 0 true ≠ s.B := by
    intro heq
    rw [heq] at hfind
    have hnone := hfind.empty fun hB => lt_irrefl _ hB.2.1
    have hjpos := Nat.div_add_mod' j s.B
    rw [hjx] at hjpos
    refine Set.eq_empty_iff_forall_notMem.mp hnone (j % s.B) ?_
    exact ⟨Nat.zero_le _, Nat.mod_lt j s.B_pos, by rw [hjpos]; exact hj.2⟩
  obtain ⟨⟨_, hB, hmem⟩, hmin⟩ := hfind.isLeast hne
  have hmono : Monotone (· / s.B) := fun _ _ hle => Nat.div_le_div_right hle
  -- all of the block is ahead
  have hahead : ∀ y, y / s.B = x → climb s.B idx l ≤ y := by
    intro y hy
    by_contra hlt
    have := Nat.div_le_div_right (c := s.B) (Nat.le_of_not_le hlt)
    simp only [climb] at hclimb
    omega
  have hdiv := (s.div_mod_B x hB).1
  refine ⟨hib, hne, isLeast_of_fiber hmono hx ⟨⟨⟨hahead _ hdiv, hmem⟩, hdiv⟩, ?_⟩⟩
  rintro y ⟨⟨_, hy⟩, hydiv⟩
  have hypos := Nat.div_add_mod' y s.B
  rw [hydiv] at hypos
  have := hmin (a := y % s.B) ⟨Nat.zero_le _, Nat.mod_lt y s.B_pos, by rwa [hypos]⟩
  omega

/-- From the first block ahead `findnext` goes down to the first index ahead. -/
theorem descend {idx l x : ℕ} (rounds mbc : ℕ) (hp : Passed h idx l) (hl : l < s.Levels)
    (hclimb : climb s.B idx (l + 1) ≤ x) (hx : IsLeast ((· / s.B) '' ahead h idx l) x)
    (hrounds : l < rounds) :
    ∃ r, findnextLoop h rounds l x 0 mbc = some r ∧ IsLeast (ahead h idx 0) r := by
  obtain ⟨hib, hne, hleast⟩ := descend_block hclimb hx
  obtain ⟨rounds, rfl⟩ := Nat.exists_eq_add_one_of_ne_zero (Nat.ne_zero_of_lt hrounds)
  simp only [findnextLoop, block_eq h hl hib, Option.bind_some, if_neg hne]
  induction l generalizing x rounds mbc with
  | zero => exact ⟨_, if_pos rfl, hleast⟩
  | succ l ih =>
    have hclimb' := hleast.1.1
    rw [hp l (Nat.lt_succ_self l)] at hleast
    obtain ⟨hib', hne', hleast'⟩ := descend_block hclimb' hleast
    obtain ⟨rounds, rfl⟩ := Nat.exists_eq_add_one_of_ne_zero (n := rounds) (by omega)
    obtain ⟨r, hr, hr'⟩ := ih (mbc * s.B) (hp.mono (Nat.le_succ l)) (by omega) hclimb' hleast hib'
      hne' hleast' rounds (by omega)
    refine ⟨r, ?_, hr'⟩
    rw [if_neg (Nat.succ_ne_zero l), Nat.add_sub_cancel]
    simp only [findnextLoop, block_eq h (Nat.lt_of_succ_lt hl) hib', Option.bind_some, if_neg hne']
    exact hr

/-! ### The way up -/

/-- The quotient that is taken for the number of blocks, and where it lies. -/
theorem quotient_le_blocks (s : Shape) (l : ℕ) : s.maxBucketCount / s.B ^ l ≤ s.blocks l := by
  induction l with
  | zero => rw [Nat.pow_zero, Nat.div_one, s.blocks_zero]
  | succ l ih =>
    rw [Nat.pow_succ, ← Nat.div_div_eq_div_mul]
    refine (Nat.div_le_div_right ih).trans ?_
    rw [s.blocks_succ, divup]
    have := s.blocks_pos l
    rcases Nat.eq_zero_or_pos (s.blocks l / s.B) with h0 | hpos
    · rw [h0]
      exact Nat.zero_le _
    · have : s.blocks l ≤ s.blocks l - 1 + s.B := by have := s.B_pos; omega
      have := (Nat.div_le_div_right (c := s.B) this)
      rwa [Nat.add_div_right _ s.B_pos] at this

/-- How the walk up ends: on level `l`, with a find, or because the blocks seem to be used up. -/
inductive Ends (h : Bitmaps s) (idx r : ℕ) : Prop where
  | found (l : ℕ) (least : IsLeast (ahead h idx 0) r)
      (inner : ∀ k < l, climb s.B idx (k + 1) < s.maxBucketCount / s.B ^ k)
      (here : r / s.B ^ (l + 1) < climb s.B idx (l + 1))
  | gaveUp (l : ℕ) (limit : r = limit)
      (outer : s.maxBucketCount / s.B ^ l ≤ climb s.B idx (l + 1))
      (behind : ∀ j ∈ ahead h idx 0, climb s.B idx (l + 1) ≤ j / s.B ^ (l + 1))

/-- The blocks of level 0 that an index stands for, level by level. -/
theorem div_pow_succ (j B l : ℕ) : j / B ^ (l + 1) = j / B ^ l / B := by
  rw [Nat.pow_succ, Nat.div_div_eq_div_mul]

theorem climb_ends (hsum : Summary h) {idx l rounds : ℕ} (hl : l < s.Levels) (hp : Passed h idx l)
    (hblock : climb s.B idx l / s.B < s.blocks l)
    (hinner : ∀ k < l, climb s.B idx (k + 1) < s.maxBucketCount / s.B ^ k)
    (hrounds : 2 * s.Levels ≤ rounds + l) :
    ∃ r, findnextLoop h rounds l (climb s.B idx l / s.B) (climb s.B idx l % s.B)
        (s.maxBucketCount / s.B ^ l) = some r ∧ Ends h idx r := by
  obtain ⟨rounds, rfl⟩ := Nat.exists_eq_add_one_of_ne_zero (n := rounds) (by omega)
  simp only [findnextLoop, block_eq h hl hblock, Option.bind_some]
  have hfind := block_findnext (h := h) hblock (climb s.B idx l % s.B)
  split
  case isTrue hB =>
    rw [hB] at hfind
    have hnone := hfind.empty fun hmem => lt_irrefl _ hmem.2.1
    split
    case isTrue hge =>
      refine ⟨limit, rfl, .gaveUp l rfl hge fun j hj => ?_⟩
      rw [div_pow_succ]
      refine climb_le_of_none hnone ?_
      rw [ahead_eq_image hp]
      exact ⟨j, hj, rfl⟩
    case isFalse hlt =>
      have hquot := quotient_le_blocks s l
      have hinner' : climb s.B idx (l + 1) < s.maxBucketCount / s.B ^ l := Nat.lt_of_not_le hlt
      -- on the top level there is no other block to go on to
      have hl' : l + 1 < s.Levels := by
        by_contra htop
        rw [show l = s.Levels - 1 by omega, s.blocks_top] at hquot
        rw [show l = s.Levels - 1 by omega] at hinner'
        simp only [climb] at hinner'
        have := Nat.zero_le (climb s.B idx (s.Levels - 1) / s.B)
        omega
      have hchain := passed_block (hsum l (Nat.zero_le l) hl') hnone
      have hblock' : climb s.B idx (l + 1) / s.B < s.blocks (l + 1) :=
        div_lt_divup (Nat.lt_of_lt_of_le hinner' hquot)
      rw [← div_pow_succ]
      refine climb_ends hsum hl' (hp.succ hchain) hblock' (fun k hk => ?_) (by omega)
      rcases Nat.lt_succ_iff_lt_or_eq.mp hk with hk | rfl
      · exact hinner k hk
      · exact hinner'
  case isFalse hB =>
    have hleast := isLeast_ahead (hfind.isLeast hB)
    have hhere : (climb s.B idx l / s.B * s.B +
        (h l (climb s.B idx l / s.B)).findnext (climb s.B idx l % s.B) true) / s.B <
          climb s.B idx (l + 1) := by
      rw [(s.div_mod_B _ (hfind.isLeast hB).1.2.1).1]
      exact Nat.lt_succ_self _
    cases l with
    | zero => exact ⟨_, if_pos rfl, .found 0 hleast hinner (by simpa using hhere)⟩
    | succ l =>
      rw [if_neg (Nat.succ_ne_zero l), Nat.add_sub_cancel]
      have hclimb := hleast.1.1
      have himage := hleast
      rw [hp l (Nat.lt_succ_self l)] at himage
      obtain ⟨r, hr, hr'⟩ := descend rounds _ (hp.mono (Nat.le_succ l)) (Nat.lt_of_succ_lt hl)
        hclimb himage (by omega)
      refine ⟨r, hr, .found (l + 1) hr' hinner ?_⟩
      have hmono : Monotone (· / s.B ^ (l + 1)) := fun _ _ hle => Nat.div_le_div_right hle
      have hmap := hmono.map_isLeast hr'
      rw [← ahead_eq_image hp] at hmap
      rw [div_pow_succ, hmap.unique hleast]
      exact hhere
termination_by s.Levels - l

/-! ### The answer -/

/-- The walk from `idx` comes to stand before the partial last block of a level, with nothing
    set on the way there and something set in that block. -/
def Overlooked (s : Shape) (S : Set ℕ) (idx : ℕ) : Prop :=
  ∃ l ≥ 1, climb s.B idx (l + 1) = s.maxBucketCount / s.B ^ l ∧
    (∃ j ∈ S, idx ≤ j) ∧ ∀ j ∈ S, idx ≤ j → climb s.B idx (l + 1) * s.B ^ (l + 1) ≤ j

/-- An index behind the walk on one level is behind it on all further ones. -/
theorem behind_mono {B idx r l k : ℕ} (hk : l ≤ k) (h : r / B ^ (l + 1) < climb B idx (l + 1)) :
    r / B ^ (k + 1) < climb B idx (k + 1) := by
  induction hk with
  | refl => exact h
  | step _ ih =>
    rw [div_pow_succ]
    exact Nat.lt_succ_of_le (Nat.div_le_div_right ih.le)

/-- An index is in a block that its level counts, the partial last one included. -/
theorem div_pow_le (s : Shape) {j : ℕ} (hj : j / s.B < s.blocks 0) (l : ℕ) :
    j / s.B ^ (l + 1) ≤ s.maxBucketCount / s.B ^ l := by
  rw [Nat.pow_succ, Nat.mul_comm, ← Nat.div_div_eq_div_mul]
  exact Nat.div_le_div_right (Nat.le_of_lt hj)

theorem lt_limit {j : ℕ} (hj : j ∈ level h 0) : j < limit := by
  have hB : j / s.B < s.maxBucketCount := hj.1
  exact Nat.lt_of_lt_of_le ((Nat.div_lt_iff_lt_mul s.B_pos).mp hB) s.size

theorem ends_iff {idx r : ℕ} (hends : Ends h idx r) :
    FirstOr (ahead h idx 0) limit r ↔ ¬ Overlooked s (level h 0) idx := by
  have hpow : ∀ l, 0 < s.B ^ l := fun l => Nat.pow_pos s.B_pos
  cases hends with
  | found l least inner here =>
    refine iff_of_true (.of_isLeast least) ?_
    rintro ⟨k, -, heq, -, hall⟩
    have hle := hall r least.1.2 least.1.1
    rw [← Nat.le_div_iff_mul_le (hpow _)] at hle
    rcases lt_or_ge k l with hk | hk
    · exact absurd heq (inner k hk).ne
    · exact absurd (behind_mono hk here) (Nat.not_lt.mpr hle)
  | gaveUp l limit outer behind =>
    subst limit
    constructor
    · rintro hfirst ⟨-, -, -, ⟨j, hj, hidx⟩, -⟩
      rcases hfirst with hleast | ⟨hnone, -⟩
      · exact lt_irrefl _ (lt_limit hleast.1.2)
      · exact Set.eq_empty_iff_forall_notMem.mp hnone j ⟨hidx, hj⟩
    · intro hseen
      refine .inr ⟨Set.eq_empty_iff_forall_notMem.mpr fun j hj => hseen ?_, rfl⟩
      have heq := le_antisymm ((behind j hj).trans (div_pow_le s hj.2.1 l)) outer
      refine ⟨l, ?_, heq, ⟨j, hj.2, hj.1⟩, fun k hk hidx => ?_⟩
      · rcases Nat.eq_zero_or_pos l with rfl | hpos
        · -- level 0 has no partial block that is not counted
          have hlt := hj.2.1
          have hle := behind j hj
          rw [heq, Nat.pow_zero, Nat.div_one, Nat.zero_add, Nat.pow_one] at hle
          exact absurd hlt (Nat.not_lt.mpr hle)
        · exact hpos
      · rw [← Nat.le_div_iff_mul_le (hpow _)]
        exact behind k ⟨hidx, hk⟩

theorem findnext_spec (hsum : Summary h) {idx : ℕ} (hidx : Inside s idx) :
    ∃ r, findnext h idx = some r ∧ Ends h idx r := by
  have hmbc : s.maxBucketCount = s.maxBucketCount / s.B ^ 0 := by rw [Nat.pow_zero, Nat.div_one]
  rw [findnext, hmbc]
  exact climb_ends hsum s.Levels_pos (fun k hk => absurd hk (Nat.not_lt_zero k)) hidx
    (fun k hk => absurd hk (Nat.not_lt_zero k)) le_rfl

theorem findnext_iff (hsum : Summary h) {idx : ℕ} (hidx : Inside s idx) :
    (∃ r, findnext h idx = some r ∧ FirstOr {j | idx ≤ j ∧ j ∈ level h 0} limit r) ↔
      ¬ Overlooked s (level h 0) idx := by
  obtain ⟨r, hr, hends⟩ := findnext_spec hsum hidx
  rw [← ends_iff hends]
  constructor
  · rintro ⟨r', hr', hfirst⟩
    rw [Option.some.inj (hr.symm.trans hr')]
    exact hfirst
  · intro hfirst
    exact ⟨r, hr, hfirst⟩

/-- `findnext` always returns and stays within the blocks; its answer is the least index from `idx`
    on unless that is overlooked. -/
theorem findnext_least (s : Shape) (ops : List Op) (idx : ℕ)
    (hops : ∀ op ∈ ops, Inside s op.idx) (hidx : Inside s idx) :
    ∃ h, run s ops = some h ∧ (∃ r, findnext h idx = some r) ∧
      ((∃ r, findnext h idx = some r ∧
          FirstOr {j | idx ≤ j ∧ j ∈ ops.foldl (Op.apply s.B) ∅} limit r) ↔
        ¬ Overlooked s (ops.foldl (Op.apply s.B) ∅) idx) := by
  obtain ⟨h, hrun, hsum, hlevel⟩ := run_spec s ops hops
  obtain ⟨r, hr, -⟩ := findnext_spec hsum hidx
  rw [← hlevel]
  exact ⟨h, hrun, ⟨r, hr⟩, findnext_iff hsum hidx⟩

/-- What is overlooked lies in a later block of its level. -/
theorem Overlooked.le {S : Set ℕ} {idx j : ℕ} (h : Overlooked s S idx) (hj : j ∈ S) (hidx : idx ≤ j) :
    ∃ l ≥ 1, climb s.B idx (l + 1) = s.maxBucketCount / s.B ^ l ∧ s.B ^ (l + 1) ≤ j := by
  obtain ⟨l, hl, heq, -, hall⟩ := h
  refine ⟨l, hl, heq, le_trans ?_ (hall j hj hidx)⟩
  exact Nat.le_mul_of_pos_left _ (Nat.succ_pos _)

theorem findnext_least_sample : ∃ h, run sample [.set 8192, .set 5000, .set 70] = some h ∧
    findnext h 100 = some 5000 := by
  obtain ⟨h, hrun, -, hiff⟩ := findnext_least sample [.set 8192, .set 5000, .set 70] 100
    (by decide) (by decide)
  have hmem : (5000 : ℕ) ∈ [Op.set 8192, .set 5000, .set 70].foldl (Op.apply sample.B) ∅ :=
    .inr (.inl rfl)
  obtain ⟨r, hr, hfirst⟩ := hiff.mpr fun hover => by
    obtain ⟨l, hl, heq, hle⟩ := hover.le hmem (by decide)
    rcases (Nat.lt_or_eq_of_le hl).symm with rfl | hl
    · exact absurd heq (by decide)
    · have hpow : sample.B ^ 3 ≤ sample.B ^ (l + 1) :=
        Nat.pow_le_pow_right sample.B_pos (Nat.succ_le_succ hl)
      exact absurd (hpow.trans hle) (by decide)
  have hleast : IsLeast {j | 100 ≤ j ∧
      j ∈ [Op.set 8192, .set 5000, .set 70].foldl (Op.apply sample.B) ∅} 5000 := by
    refine ⟨⟨by decide, hmem⟩, ?_⟩
    rintro j ⟨hj, rfl | rfl | rfl | hnone⟩
    · exact absurd hj (by decide)
    · exact le_rfl
    · decide
    · exact absurd hnone (Set.notMem_empty j)
  rcases hfirst with hfirst | ⟨hempty, -⟩
  · exact ⟨h, hrun, by rw [hr, hfirst.unique hleast]⟩
  · exact absurd hleast.1 (Set.eq_empty_iff_forall_notMem.mp hempty 5000)

/-- Index 8192 is the first one of block 2 on level 1, and from 4096 the walk takes block 1 there
    for the last. -/
theorem overlooked_sample : Overlooked sample ([Op.set 8192].foldl (Op.apply sample.B) ∅) 4096 := by
  refine ⟨1, le_rfl, by decide, ⟨8192, .inl rfl, by decide⟩, ?_⟩
  rintro j (rfl | hj) -
  · decide
  · exact absurd hj (Set.notMem_empty j)

theorem findnext_overlooks : ¬ ∀ (s : Shape) (ops : List Op) (idx : ℕ),
    (∀ op ∈ ops, op.idx < s.bitcount ∧ (op = .set op.idx ∨ op = .clr op.idx)) → idx < s.bitcount →
    ∃ h r, run s ops = some h ∧ findnext h idx = some r ∧
      FirstOr {j | idx ≤ j ∧ j ∈ ops.foldl (Op.apply s.B) ∅} limit r := by
  intro hall
  obtain ⟨h, r, hrun, hr, hfirst⟩ := hall sample [.set 8192] 4096 (by simp [Op.idx, sample])
    (by decide)
  obtain ⟨hsum, hlevel⟩ := run_sound (by decide) hrun
  rw [← hlevel] at hfirst
  refine (findnext_iff hsum (by decide : Inside sample 4096)).mp ⟨r, hr, hfirst⟩ ?_
  rw [hlevel]
  exact overlooked_sample

end Libfibre.HierarchicalBitmap
