import Libfibre.HierarchicalBitmap.Model
import Mathlib.Data.Set.Insert
import Mathlib.Data.Set.Lattice

/-! What keeps the levels together: a level is the image of the one below it under `· / B`. `set` and
    `clr` walk up only while that asks for a change, so each of their walks is a lemma of one shape:
    the level it starts on changes as asked, the levels above follow, the ones below stay. -/

namespace Libfibre.HierarchicalBitmap
open Search

variable {s : Shape}

/-- The bits of a level. -/
def level (h : Bitmaps s) (l : ℕ) : Set ℕ :=
  {j | j / s.B < s.blocks l ∧ (h l (j / s.B)).mem (j % s.B) = true}

/-- From level `l` up, every level summarises the one below it. -/
def Chain (h : Bitmaps s) (l : ℕ) : Prop :=
  ∀ k, l ≤ k → k + 1 < s.Levels → level h (k + 1) = (· / s.B) '' level h k

/-- The summary invariant. -/
abbrev Summary (h : Bitmaps s) : Prop := Chain h 0

/-! ### One block -/

theorem level_put_of_ne (h : Bitmaps s) {l k : ℕ} (hk : k ≠ l) (i : ℕ) (b : BitmapB s.B) :
    level (put h l i b) k = level h k := by
  rw [level, level, put, Function.update_of_ne hk]

theorem mem_level_put (h : Bitmaps s) (l i : ℕ) (b : BitmapB s.B) (j : ℕ) :
    j ∈ level (put h l i b) l ↔
      j / s.B < s.blocks l ∧ if j / s.B = i then b.mem (j % s.B) = true else j ∈ level h l := by
  rw [level, Set.mem_ofPred_eq, put, Function.update_self]
  refine and_congr_right fun hj => ?_
  split
  case isTrue heq => rw [heq, Function.update_self]
  case isFalse hne =>
    rw [Function.update_of_ne hne, level, Set.mem_ofPred_eq]
    exact (and_iff_right hj).symm

/-- `put` of a changed block changes the level by the same rule. -/
theorem level_put {h : Bitmaps s} {l i : ℕ} {b : BitmapB s.B} {S : Set ℕ}
    (hsame : ∀ j, j / s.B ≠ i → (j ∈ S ↔ j ∈ level h l))
    (hblock : ∀ j, j / s.B = i → (b.mem (j % s.B) = true ↔ j ∈ S)) (hi : i < s.blocks l) :
    level (put h l i b) l = S := by
  ext j
  rw [mem_level_put]
  by_cases hj : j / s.B = i
  · rw [if_pos hj, hblock j hj]
    exact and_iff_right (hj ▸ hi)
  · rw [if_neg hj, hsame j hj]
    exact and_iff_right_of_imp And.left

/-- Indices of one block differ in their remainders. -/
theorem mod_eq_iff {B i j : ℕ} (h : j / B = i / B) : j % B = i % B ↔ j = i := by
  constructor
  · intro hmod
    rw [← Nat.div_add_mod j B, ← Nat.div_add_mod i B, h, hmod]
  · rintro rfl
    rfl

theorem mem_block {h : Bitmaps s} {l i j : ℕ} (hi : i < s.blocks l) (hj : j / s.B = i) :
    (h l i).mem (j % s.B) = true ↔ j ∈ level h l := by
  rw [level, Set.mem_ofPred_eq, hj]
  exact (and_iff_right hi).symm

theorem level_set (h : Bitmaps s) {l idx : ℕ} (hi : idx / s.B < s.blocks l) :
    level (put h l (idx / s.B) ((h l (idx / s.B)).set (idx % s.B))) l =
      insert idx (level h l) := by
  refine level_put (fun j hj => ?_) (fun j hj => ?_) hi
  · rw [Set.mem_insert_iff]
    exact or_iff_right (fun heq => hj (by rw [heq]))
  · rw [BitmapB.mem_set _ (s.valid_mod idx), Bool.or_eq_true, decide_eq_true_iff, mod_eq_iff hj,
      mem_block hi hj, Set.mem_insert_iff]

theorem level_clr (h : Bitmaps s) {l idx : ℕ} (hi : idx / s.B < s.blocks l) :
    level (put h l (idx / s.B) ((h l (idx / s.B)).clr (idx % s.B))) l = level h l \ {idx} := by
  refine level_put (fun j hj => ?_) (fun j hj => ?_) hi
  · rw [Set.mem_sdiff, Set.mem_singleton_iff]
    exact and_iff_left (fun heq => hj (by rw [heq]))
  · rw [BitmapB.mem_clr _ (s.valid_mod idx), Bool.and_eq_true, Bool.not_eq_true',
      decide_eq_false_iff_not, mod_eq_iff hj, mem_block hi hj, Set.mem_sdiff, Set.mem_singleton_iff,
      and_comm]

theorem level_setB (h : Bitmaps s) {l i : ℕ} (hi : i < s.blocks l) :
    level (put h l i (h l i).setB) l = level h l ∪ {j | j / s.B = i} := by
  refine level_put (fun j hj => ?_) (fun j hj => ?_) hi
  · exact or_iff_left hj
  · rw [BitmapB.mem_setB _ (s.valid_mod j)]
    exact iff_of_true rfl (.inr hj)

theorem level_clrB (h : Bitmaps s) {l i : ℕ} (hi : i < s.blocks l) :
    level (put h l i (h l i).clrB) l = level h l \ {j | j / s.B = i} := by
  refine level_put (fun j hj => ?_) (fun j hj => ?_) hi
  · exact and_iff_left hj
  · rw [BitmapB.mem_clrB]
    exact iff_of_false Bool.false_ne_true fun hmem => hmem.2 hj

/-- A block is empty when the level has no index in it. -/
theorem block_empty_iff {h : Bitmaps s} {l i : ℕ} (hi : i < s.blocks l) :
    (h l i).empty = true ↔ i ∉ (· / s.B) '' level h l := by
  rw [BitmapB.empty_iff]
  constructor
  · rintro hempty ⟨j, hj, hji⟩
    rw [← mem_block hi hji, hempty] at hj
    exact Bool.noConfusion hj
  · intro hnone r
    by_contra hne
    rw [Bool.not_eq_false] at hne
    have hr : r < s.B := s.words_B ▸ BitmapB.mem_valid hne
    obtain ⟨hdiv, hmod⟩ := s.div_mod_B i hr
    refine hnone ⟨i * s.B + r, ?_, hdiv⟩
    rw [← mem_block hi hdiv, hmod]
    exact hne

/-! ### Images under a change -/

theorem image_diff_of_mem {f : ℕ → ℕ} {S : Set ℕ} {a : ℕ} (h : f a ∈ f '' (S \ {a})) :
    f '' (S \ {a}) = f '' S := by
  refine Set.Subset.antisymm (Set.image_mono Set.sdiff_subset) ?_
  rintro _ ⟨x, hx, rfl⟩
  by_cases hxa : x = a
  · exact hxa ▸ h
  · exact ⟨x, ⟨hx, hxa⟩, rfl⟩

theorem image_diff_of_notMem {f : ℕ → ℕ} {S : Set ℕ} {a : ℕ} (h : f a ∉ f '' (S \ {a})) :
    f '' (S \ {a}) = f '' S \ {f a} := by
  refine Set.Subset.antisymm ?_ ?_
  · rintro _ ⟨x, hx, rfl⟩
    refine ⟨⟨x, hx.1, rfl⟩, fun heq => h ⟨x, hx, heq⟩⟩
  · rintro _ ⟨⟨x, hx, rfl⟩, hne⟩
    exact ⟨x, ⟨hx, fun heq => hne (congrArg f heq)⟩, rfl⟩

theorem image_diff_fiber (f : ℕ → ℕ) (S : Set ℕ) (b : ℕ) :
    f '' (S \ {j | f j = b}) = f '' S \ {b} := by
  ext y
  constructor
  · rintro ⟨x, ⟨hx, hne⟩, rfl⟩
    exact ⟨⟨x, hx, rfl⟩, hne⟩
  · rintro ⟨⟨x, hx, rfl⟩, hne⟩
    exact ⟨x, ⟨hx, hne⟩, rfl⟩

theorem image_union_fiber {f : ℕ → ℕ} (S : Set ℕ) {b : ℕ} (hb : ∃ j, f j = b) :
    f '' (S ∪ {j | f j = b}) = insert b (f '' S) := by
  obtain ⟨j, hj⟩ := hb
  ext y
  constructor
  · rintro ⟨x, hx | hx, rfl⟩
    · exact .inr ⟨x, hx, rfl⟩
    · exact .inl hx
  · rintro (rfl | ⟨x, hx, rfl⟩)
    · exact ⟨j, .inr hj, hj⟩
    · exact ⟨x, .inl hx, rfl⟩

/-! ### The walks -/

/-- What a walk from level `l` up leaves behind: `S` on its first level. -/
structure Walked (h h' : Bitmaps s) (l : ℕ) (S : Set ℕ) : Prop where
  below : ∀ k < l, level h' k = level h k
  first : l < s.Levels → level h' l = S
  chain : Chain h' l

theorem Chain.mono {h : Bitmaps s} {l k : ℕ} (hc : Chain h l) (hk : l ≤ k) : Chain h k :=
  fun i hi => hc i (hk.trans hi)

theorem Chain.extend {h : Bitmaps s} {l : ℕ} (hc : Chain h (l + 1))
    (hl : l + 1 < s.Levels → level h (l + 1) = (· / s.B) '' level h l) : Chain h l := by
  intro k hk hlt
  rcases hk.eq_or_lt with rfl | hk
  · exact hl hlt
  · exact hc k hk hlt

/-- A change below leaves the chain above. -/
theorem Chain.put {h : Bitmaps s} {l : ℕ} (hc : Chain h (l + 1)) (i : ℕ) (b : BitmapB s.B) :
    Chain (put h l i b) (l + 1) := by
  intro k hk hlt
  rw [level_put_of_ne h (by omega), level_put_of_ne h (by omega)]
  exact hc k hk hlt

/-- A walk goes on above a changed block. -/
theorem Walked.up {h h' : Bitmaps s} {l i : ℕ} {b : BitmapB s.B} {S S' : Set ℕ}
    (hput : level (put h l i b) l = S) (hw : Walked (put h l i b) h' (l + 1) S')
    (himage : l + 1 < s.Levels → S' = (· / s.B) '' S) : Walked h h' l S := by
  have hfirst : level h' l = S := by rw [hw.below l (Nat.lt_succ_self l), hput]
  refine ⟨fun k hk => ?_, fun _ => hfirst, hw.chain.extend fun hlt => ?_⟩
  · rw [hw.below k (by omega), level_put_of_ne h (by omega)]
  · rw [hw.first hlt, hfirst, himage hlt]

/-- Where a walk may start: the block exists, and above the top there is only index 0. -/
structure Start (s : Shape) (l idx : ℕ) : Prop where
  block : idx / s.B < s.blocks l
  top : l = s.Levels → idx = 0

theorem Start.up {l idx : ℕ} (hs : Start s l idx) : Start s (l + 1) (idx / s.B) where
  block := div_lt_divup hs.block
  top hl := by
    have hlt := hs.block
    rw [show l = s.Levels - 1 by omega, s.blocks_top] at hlt
    exact Nat.lt_one_iff.mp hlt

theorem setFrom_spec {n l idx : ℕ} {h : Bitmaps s} (hn : n + l = s.Levels) (hs : Start s l idx)
    (hc : Chain h l) :
    ∃ h', setFrom h n l idx = some h' ∧ Walked h h' l (insert idx (level h l)) := by
  induction n generalizing l idx h with
  | zero =>
    refine ⟨h, if_pos (hs.top (by omega)), fun _ _ => rfl, fun hlt => ?_, hc⟩
    omega
  | succ n ih =>
    have hl : l < s.Levels := by omega
    have htest := mem_block (h := h) hs.block rfl
    rw [← BitmapB.test_eq_mem _ (s.valid_mod idx)] at htest
    simp only [setFrom, block_eq h hl hs.block, Option.bind_some]
    split
    case isTrue hset =>
      refine ⟨h, rfl, fun _ _ => rfl, fun _ => ?_, hc⟩
      rw [Set.insert_eq_of_mem (htest.mp hset)]
    case isFalse =>
      obtain ⟨h', heq, hw⟩ := ih (by omega) hs.up ((hc.mono (Nat.le_succ l)).put _ _)
      refine ⟨h', heq, hw.up (level_set h hs.block) fun hlt => ?_⟩
      rw [level_put_of_ne h (by omega), hc l le_rfl hlt, Set.image_insert_eq]

theorem clrFrom_spec {n l idx : ℕ} {h : Bitmaps s} (hn : n + l = s.Levels) (hs : Start s l idx)
    (hc : Chain h l) :
    ∃ h', clrFrom h n l idx = some h' ∧ Walked h h' l (level h l \ {idx}) := by
  induction n generalizing l idx h with
  | zero =>
    refine ⟨h, if_pos (hs.top (by omega)), fun _ _ => rfl, fun hlt => ?_, hc⟩
    omega
  | succ n ih =>
    have hl : l < s.Levels := by omega
    have hput := level_clr h hs.block
    have hempty := block_empty_iff (h := put h l (idx / s.B) ((h l (idx / s.B)).clr (idx % s.B)))
      hs.block
    rw [hput, put, Function.update_self, Function.update_self] at hempty
    simp only [clrFrom, block_eq h hl hs.block, Option.bind_some]
    split
    case isTrue hne =>
      -- the block keeps a bit: the levels above are right as they are
      rw [Bool.not_eq_true'] at hne
      have hmem : idx / s.B ∈ (· / s.B) '' (level h l \ {idx}) := by
        by_contra hnone
        rw [hempty.mpr hnone] at hne
        exact Bool.noConfusion hne
      refine ⟨_, rfl, fun k hk => level_put_of_ne h (by omega) _ _, fun _ => hput, ?_⟩
      refine ((hc.mono (Nat.le_succ l)).put _ _).extend fun hlt => ?_
      rw [level_put_of_ne h (by omega), hput, image_diff_of_mem hmem]
      exact hc l le_rfl hlt
    case isFalse he =>
      rw [Bool.not_eq_true', Bool.not_eq_false] at he
      obtain ⟨h', heq, hw⟩ := ih (by omega) hs.up ((hc.mono (Nat.le_succ l)).put _ _)
      refine ⟨h', heq, hw.up hput fun hlt => ?_⟩
      rw [level_put_of_ne h (by omega), hc l le_rfl hlt]
      exact (image_diff_of_notMem (hempty.mp he)).symm

/-! ### The operations -/

/-- `idx` lies in a block of level 0. -/
def Inside (s : Shape) (idx : ℕ) : Prop := idx / s.B < s.blocks 0

instance (s : Shape) (idx : ℕ) : Decidable (Inside s idx) := inferInstanceAs (Decidable (_ < _))

theorem set_spec {h : Bitmaps s} (hsum : Summary h) {idx : ℕ} (hidx : Inside s idx) :
    ∃ h', set h idx 0 = some h' ∧ Summary h' ∧ level h' 0 = insert idx (level h 0) := by
  have hstart : Start s 0 idx := ⟨hidx, fun h0 => absurd h0.symm s.Levels_pos.ne'⟩
  obtain ⟨h', heq, hw⟩ := setFrom_spec (Nat.add_zero s.Levels) hstart hsum
  exact ⟨h', heq, hw.chain, hw.first s.Levels_pos⟩

theorem clr_spec {h : Bitmaps s} (hsum : Summary h) {idx : ℕ} (hidx : Inside s idx) :
    ∃ h', clr h idx 0 = some h' ∧ Summary h' ∧ level h' 0 = level h 0 \ {idx} := by
  have hstart : Start s 0 idx := ⟨hidx, fun h0 => absurd h0.symm s.Levels_pos.ne'⟩
  obtain ⟨h', heq, hw⟩ := clrFrom_spec (Nat.add_zero s.Levels) hstart hsum
  exact ⟨h', heq, hw.chain, hw.first s.Levels_pos⟩

/-- Both block operations enter on level 1. -/
theorem start_one {idx : ℕ} (hidx : Inside s idx) : Start s 1 (idx / s.B) where
  block := div_lt_divup hidx
  top h1 := by
    have hlt : idx / s.B < s.blocks (s.Levels - 1) := by rwa [← h1]
    rw [s.blocks_top] at hlt
    exact Nat.lt_one_iff.mp hlt

theorem blockset_spec {h : Bitmaps s} (hsum : Summary h) {idx : ℕ} (hidx : Inside s idx) :
    ∃ h', blockset h idx = some h' ∧ Summary h' ∧
      level h' 0 = level h 0 ∪ {j | j / s.B = idx / s.B} := by
  have hput := level_setB h hidx
  have hn : s.Levels - 1 + 1 = s.Levels := Nat.sub_add_cancel s.Levels_pos
  obtain ⟨h', heq, hw⟩ := setFrom_spec (h := put h 0 (idx / s.B) (h 0 (idx / s.B)).setB) hn
    (start_one hidx) ((hsum.mono (Nat.zero_le 1)).put _ _)
  have hup := hw.up hput fun hlt => by
    rw [level_put_of_ne h (by omega), hsum 0 le_rfl hlt, image_union_fiber _ ⟨idx, rfl⟩]
  refine ⟨h', ?_, hup.chain, hup.first s.Levels_pos⟩
  rw [blockset, block_eq h s.Levels_pos hidx, Option.bind_some, set, heq]

theorem blockclr_spec {h : Bitmaps s} (hsum : Summary h) {idx : ℕ} (hidx : Inside s idx) :
    ∃ h', blockclr h idx = some h' ∧ Summary h' ∧
      level h' 0 = level h 0 \ {j | j / s.B = idx / s.B} := by
  have hput := level_clrB h hidx
  have hn : s.Levels - 1 + 1 = s.Levels := Nat.sub_add_cancel s.Levels_pos
  obtain ⟨h', heq, hw⟩ := clrFrom_spec (h := put h 0 (idx / s.B) (h 0 (idx / s.B)).clrB) hn
    (start_one hidx) ((hsum.mono (Nat.zero_le 1)).put _ _)
  have hup := hw.up hput fun hlt => by
    rw [level_put_of_ne h (by omega), hsum 0 le_rfl hlt, image_diff_fiber]
  refine ⟨h', ?_, hup.chain, hup.first s.Levels_pos⟩
  rw [blockclr, block_eq h s.Levels_pos hidx, Option.bind_some, clr, heq]

theorem test_spec (h : Bitmaps s) {idx : ℕ} (hidx : Inside s idx) :
    ∃ r, test h idx = some r ∧ (r = true ↔ idx ∈ level h 0) := by
  refine ⟨_, by rw [test, block_eq h s.Levels_pos hidx, Option.map_some], ?_⟩
  rw [BitmapB.test_eq_mem _ (s.valid_mod idx), mem_block hidx rfl]

theorem level_empty_iff {h : Bitmaps s} (hsum : Summary h) {l : ℕ} (hl : l < s.Levels) :
    level h l = ∅ ↔ level h 0 = ∅ := by
  induction l with
  | zero => rfl
  | succ l ih => rw [hsum l (Nat.zero_le l) hl, Set.image_eq_empty, ih (by omega)]

/-- On the top level every index is in block 0. -/
theorem top_div {h : Bitmaps s} {j : ℕ} (hj : j ∈ level h (s.Levels - 1)) : j / s.B = 0 := by
  have := hj.1
  rw [s.blocks_top] at this
  exact Nat.lt_one_iff.mp this

theorem empty_spec {h : Bitmaps s} (hsum : Summary h) :
    ∃ r, empty h = some r ∧ (r = true ↔ level h 0 = ∅) := by
  have htop : s.Levels - 1 < s.Levels := Nat.sub_lt s.Levels_pos Nat.one_pos
  refine ⟨_, by rw [empty, block_eq h htop (s.blocks_pos _), Option.map_some], ?_⟩
  rw [← level_empty_iff hsum htop, block_empty_iff (s.blocks_pos _)]
  constructor
  · intro hnone
    exact Set.eq_empty_iff_forall_notMem.mpr fun j hj => hnone ⟨j, hj, top_div hj⟩
  · rintro he ⟨j, hj, -⟩
    rw [he] at hj
    exact hj

/-! ### `find` -/

/-- The bits of a block are those of its level. -/
theorem bit_level {h : Bitmaps s} {l i : ℕ} (hi : i < s.blocks l) (r : ℕ) :
    MultiScan.Bit (h l i).bits true r ↔ r < s.B ∧ i * s.B + r ∈ level h l := by
  rw [BitmapB.bit_iff, BitmapB.valid, s.words_B]
  refine and_congr_right fun hr => ?_
  obtain ⟨hdiv, hmod⟩ := s.div_mod_B i hr
  rw [← mem_block hi hdiv, hmod]

/-- The scan of a block, as indices of its level. -/
theorem block_find {h : Bitmaps s} {l i : ℕ} (hi : i < s.blocks l) :
    FirstOr {r | r < s.B ∧ i * s.B + r ∈ level h l} s.B ((h l i).find true) := by
  have hfind := (h l i).find_firstOr true
  simp only [bit_level hi] at hfind
  rwa [s.words_B] at hfind

/-- The first index of a level's first block is the first of the level. -/
theorem isLeast_level {h : Bitmaps s} {l i r : ℕ} (hi : IsLeast ((· / s.B) '' level h l) i)
    (hr : IsLeast {r | r < s.B ∧ i * s.B + r ∈ level h l} r) :
    IsLeast (level h l) (i * s.B + r) := by
  have hmono : Monotone (· / s.B) := fun _ _ hle => Nat.div_le_div_right hle
  refine isLeast_of_fiber hmono hi ⟨⟨hr.1.2, (s.div_mod_B i hr.1.1).1⟩, ?_⟩
  rintro x ⟨hx, hxi⟩
  have hmod : x = i * s.B + x % s.B := by
    rw [← hxi, Nat.mul_comm]
    exact (Nat.div_add_mod x s.B).symm
  rw [hmod] at hx ⊢
  have := hr.2 ⟨Nat.mod_lt x s.B_pos, hx⟩
  omega

/-- A block that the level has an index in is not scanned in vain. -/
theorem find_block {h : Bitmaps s} {l i : ℕ} (hi : i ∈ (· / s.B) '' level h l) :
    i < s.blocks l ∧ (h l i).find true ≠ s.B ∧
      IsLeast {r | r < s.B ∧ i * s.B + r ∈ level h l} ((h l i).find true) := by
  obtain ⟨j, hj, hji⟩ := hi
  have hib : i < s.blocks l := hji ▸ hj.1
  have hfind := block_find (h := h) hib
  have hmem : j % s.B ∈ {r | r < s.B ∧ i * s.B + r ∈ level h l} := by
    refine ⟨Nat.mod_lt j s.B_pos, ?_⟩
    rwa [← hji, Nat.mul_comm, Nat.div_add_mod]
  have hne : (h l i).find true ≠ s.B := by
    intro heq
    rw [heq] at hfind
    rw [hfind.empty fun hB => lt_irrefl _ hB.1] at hmem
    exact hmem
  exact ⟨hib, hne, hfind.isLeast hne⟩

/-- From the first block of a level `find` goes down to the first index of level 0. -/
theorem findFrom_spec {h : Bitmaps s} (hsum : Summary h) {l i : ℕ} (hl : l < s.Levels)
    (hi : IsLeast ((· / s.B) '' level h l) i) :
    ∃ r, findFrom h l i = some r ∧ IsLeast (level h 0) r := by
  induction l generalizing i with
  | zero =>
    obtain ⟨hib, hne, hr⟩ := find_block hi.1
    refine ⟨i * s.B + (h 0 i).find true, ?_, isLeast_level hi hr⟩
    rw [findFrom, block_eq h hl hib, Option.map_some, if_neg hne]
  | succ l ih =>
    obtain ⟨hib, hne, hr⟩ := find_block hi.1
    have hleast := isLeast_level hi hr
    rw [hsum l (Nat.zero_le l) hl] at hleast
    rw [findFrom, block_eq h hl hib, Option.bind_some, if_neg hne]
    exact ih (by omega) hleast

theorem find_spec {h : Bitmaps s} (hsum : Summary h) :
    ∃ r, find h = some r ∧ FirstOr (level h 0) limit r := by
  have htop : s.Levels - 1 < s.Levels := Nat.sub_lt s.Levels_pos Nat.one_pos
  rcases (level h (s.Levels - 1)).eq_empty_or_nonempty with hnone | ⟨j, hj⟩
  · -- the top block is scanned in vain
    have hfind : (h (s.Levels - 1) 0).find true = s.B := by
      have hf := block_find (h := h) (s.blocks_pos (s.Levels - 1))
      rw [hnone] at hf
      exact (hf.resolve_left fun hl => hl.1.2).2
    refine ⟨limit, ?_, .of_empty ((level_empty_iff hsum htop).mp hnone)⟩
    rw [find]
    cases hL : s.Levels - 1 with
    | zero =>
      rw [hL] at hfind
      rw [findFrom, block_eq h s.Levels_pos (s.blocks_pos 0), Option.map_some, if_pos hfind]
    | succ l =>
      rw [hL] at hfind
      rw [findFrom, block_eq h (hL ▸ htop) (s.blocks_pos (l + 1)), Option.bind_some, if_pos hfind]
  · have hzero : IsLeast ((· / s.B) '' level h (s.Levels - 1)) 0 :=
      ⟨⟨j, hj, top_div hj⟩, fun _ _ => Nat.zero_le _⟩
    obtain ⟨r, hr, hleast⟩ := findFrom_spec hsum htop hzero
    exact ⟨r, hr, .of_isLeast hleast⟩

/-! ### Sequences of operations -/

inductive Op where
  | set (idx : ℕ)
  | clr (idx : ℕ)
  | blockset (idx : ℕ)
  | blockclr (idx : ℕ)

def Op.idx : Op → ℕ
  | .set idx | .clr idx | .blockset idx | .blockclr idx => idx

def Op.exec (h : Bitmaps s) : Op → Option (Bitmaps s)
  | .set idx => HierarchicalBitmap.set h idx 0
  | .clr idx => HierarchicalBitmap.clr h idx 0
  | .blockset idx => HierarchicalBitmap.blockset h idx
  | .blockclr idx => HierarchicalBitmap.blockclr h idx

/-- What the operations are on a set of indices. -/
def Op.apply (B : ℕ) (S : Set ℕ) : Op → Set ℕ
  | .set idx => insert idx S
  | .clr idx => S \ {idx}
  | .blockset idx => S ∪ {j | j / B = idx / B}
  | .blockclr idx => S \ {j | j / B = idx / B}

/-- `init`, then the operations. -/
def run (s : Shape) (ops : List Op) : Option (Bitmaps s) :=
  (init s).bind fun h => ops.foldlM Op.exec h

theorem exec_spec {h : Bitmaps s} (hsum : Summary h) {op : Op} (hop : Inside s op.idx) :
    ∃ h', op.exec h = some h' ∧ Summary h' ∧ level h' 0 = op.apply s.B (level h 0) := by
  cases op with
  | set idx => exact set_spec hsum hop
  | clr idx => exact clr_spec hsum hop
  | blockset idx => exact blockset_spec hsum hop
  | blockclr idx => exact blockclr_spec hsum hop

theorem foldlM_spec {h : Bitmaps s} (hsum : Summary h) {ops : List Op}
    (hops : ∀ op ∈ ops, Inside s op.idx) :
    ∃ h', ops.foldlM Op.exec h = some h' ∧ Summary h' ∧
      level h' 0 = ops.foldl (Op.apply s.B) (level h 0) := by
  induction ops generalizing h with
  | nil => exact ⟨h, rfl, hsum, rfl⟩
  | cons op ops ih =>
    rw [List.forall_mem_cons] at hops
    obtain ⟨h₁, heq, hsum₁, hlevel⟩ := exec_spec hsum hops.1
    obtain ⟨h', heq', hsum', hlevel'⟩ := ih hsum₁ hops.2
    refine ⟨h', ?_, hsum', ?_⟩
    · rw [List.foldlM_cons, heq]
      exact heq'
    · rw [hlevel', hlevel, List.foldl_cons]

theorem run_spec (s : Shape) (ops : List Op) (hops : ∀ op ∈ ops, Inside s op.idx) :
    ∃ h, run s ops = some h ∧ Summary h ∧ level h 0 = ops.foldl (Op.apply s.B) ∅ := by
  have hzero : ∀ l, level (fun _ _ => BitmapB.ofWord 0#64 : Bitmaps s) l = ∅ := by
    refine fun l => Set.eq_empty_iff_forall_notMem.mpr fun j hj => ?_
    have hset := BitmapB.mem_toSet.mpr hj.2
    rw [BitmapB.toSet_zero] at hset
    exact absurd hset (Finset.notMem_empty _)
  have hsum : Summary (fun _ _ => BitmapB.ofWord 0#64 : Bitmaps s) := by
    intro k _ _
    rw [hzero, hzero, Set.image_empty]
  obtain ⟨h, heq, hs, hl⟩ := foldlM_spec hsum hops
  rw [hzero] at hl
  exact ⟨h, by rw [run, init_eq, Option.bind_some, heq], hs, hl⟩

theorem run_sound {s : Shape} {ops : List Op} {h : Bitmaps s} (hops : ∀ op ∈ ops, Inside s op.idx)
    (hrun : run s ops = some h) : Summary h ∧ level h 0 = ops.foldl (Op.apply s.B) ∅ := by
  obtain ⟨h', hrun', hspec⟩ := run_spec s ops hops
  obtain rfl : h = h' := Option.some.inj (hrun.symm.trans hrun')
  exact hspec

/-- A bit above level 0 is set exactly when its block has one. -/
theorem summary_bit {h : Bitmaps s} (hsum : Summary h) {l i : ℕ} (hl : l + 1 < s.Levels)
    (hi : i / s.B < s.blocks (l + 1)) :
    (h (l + 1) (i / s.B)).test (i % s.B) = true ↔ i < s.blocks l ∧ (h l i).empty = false := by
  rw [BitmapB.test_eq_mem _ (s.valid_mod i), mem_block hi rfl, hsum l (Nat.zero_le l) hl]
  by_cases hib : i < s.blocks l
  · rw [← Bool.not_eq_true, block_empty_iff hib, not_not]
    exact (and_iff_right hib).symm
  · constructor
    · rintro ⟨j, hj, hji⟩
      exact absurd (hji ▸ hj.1) hib
    · intro hlt
      exact absurd hlt.1 hib

/-- Whatever was set and cleared before: the levels summarise each other, and `test`, `empty` and
    `find` answer for the set of indices that the operations amount to. -/
theorem summary_invariant (s : Shape) (ops : List Op) (hops : ∀ op ∈ ops, Inside s op.idx) :
    ∃ h, run s ops = some h ∧
      (∀ l i, l + 1 < s.Levels → i / s.B < s.blocks (l + 1) →
        ((h (l + 1) (i / s.B)).test (i % s.B) = true ↔
          i < s.blocks l ∧ (h l i).empty = false)) ∧
      (∀ i, Inside s i → ∃ r, test h i = some r ∧
        (r = true ↔ i ∈ ops.foldl (Op.apply s.B) ∅)) ∧
      (∃ r, empty h = some r ∧ (r = true ↔ ops.foldl (Op.apply s.B) ∅ = ∅)) ∧
      ∃ r, find h = some r ∧ FirstOr (ops.foldl (Op.apply s.B) ∅) limit r := by
  obtain ⟨h, hrun, hsum, hlevel⟩ := run_spec s ops hops
  rw [← hlevel]
  exact ⟨h, hrun, fun l i hl hi => summary_bit hsum hl hi, fun i hi => test_spec h hi,
    empty_spec hsum, find_spec hsum⟩

/-- Three levels, of which the lowest is not full. -/
def sample : Shape where
  logB := 6
  W := 18
  bitcount := 8256
  word := by decide
  width := by decide
  pos := by decide
  within := by decide
  size := by decide

theorem summary_invariant_sample : ∃ h, run sample [.set 8192, .blockset 70, .clr 64] = some h ∧
    ∃ r, find h = some r ∧
      FirstOr ([Op.set 8192, .blockset 70, .clr 64].foldl (Op.apply sample.B) ∅) limit r := by
  obtain ⟨h, hrun, -, -, -, hfind⟩ :=
    summary_invariant sample [.set 8192, .blockset 70, .clr 64] (by decide)
  exact ⟨h, hrun, hfind⟩

end Libfibre.HierarchicalBitmap
