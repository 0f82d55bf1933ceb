import Libfibre.Schemes.Search
import Libfibre.Runtime.Bitmap
import Mathlib.Data.Nat.Bitwise

/-! Bit scans over an array of machine words (`Platform.h`): the portable `multiscan_next`, and the
    branch-free `multiscan` and `multiscan_rev` of x86, which accumulate their result under a mask.

        multiscan      words:   0 ··· 0 │ 0 1 0 0 │ ···
                       mask:    ones    │ ones    │ zero
                       adds:    64      │ bsf     │ nothing

    Indices count bits of an array that lies in memory, so they do not wrap. -/

namespace Libfibre.MultiScan
open Bitmap Search

variable {N : ℕ}

/-- `align_down`: `x & ~(a - 1)`. -/
def alignDown (x a : ℕ) : ℕ := Nat.ldiff x (a - 1)

/-- The word that is searched for set bits. -/
def datafield (data : Fin N → Mword) (findset : Bool) (i : Fin N) : Mword :=
  if findset then data i else ~~~data i

/-- The loop of `multiscan_next`. -/
def nextLoop (data : Fin N → Mword) (findset : Bool) (i : Fin N) (result : ℕ) (field : Mword) : ℕ :=
  let b := lsb field
  let result := result + b
  if b < 64 then result
  else if h : i + 1 < N then
    nextLoop data findset ⟨i + 1, h⟩ result (datafield data findset ⟨i + 1, h⟩)
  else result
termination_by N - i

def multiscanNext (data : Fin N → Mword) (idx : ℕ) (findset : Bool) : ℕ :=
  if h : idx ≥ N * 64 then N * 64
  else
    let i : Fin N := ⟨idx / 64, by omega⟩
    nextLoop data findset i (alignDown idx 64) (datafield data findset i &&& ~~~bitmask (idx % 64))

/-- `bsfq`: the lowest set bit; none stands for the zero flag. -/
def bsfq (x : Mword) : Option ℕ := (List.range 64).find? fun i => x.getLsbD i

/-- `bsrq`: the highest set bit. -/
def bsrq (x : Mword) : Option ℕ := (List.range 64).reverse.find? fun i => x.getLsbD i

structure Scan where
  result : ℕ
  mask : Mword
  newmask : Mword

/-- Before the loop of `multiscan` and of `multiscan_rev`. -/
def Scan.init : Scan := ⟨0, ~~~0#64, ~~~0#64⟩

/-- One round of `multiscan`: `cmovzq` loads 64 into `scan`, `cmovnzq` clears `newmask`. -/
def scanStep (field : Mword) (s : Scan) : Scan :=
  match bsfq field with
  | none => ⟨s.result + (64#64 &&& s.mask).toNat, s.newmask, s.newmask⟩
  | some scan => ⟨s.result + (BitVec.ofNat 64 scan &&& s.mask).toNat, 0#64, 0#64⟩

/-- `do … while (i < N)` from word `i` on. -/
def scanLoop (data : Fin N → Mword) (findset : Bool) (i : ℕ) (s : Scan) : Scan :=
  if h : i < N then scanLoop data findset (i + 1) (scanStep (datafield data findset ⟨i, h⟩) s) else s
termination_by N - i

def multiscan (data : Fin N → Mword) (findset : Bool) : ℕ :=
  (scanLoop data findset 0 Scan.init).result

/-- One round of `multiscan_rev`: here `cmovzq` loads 0, and later words add 64 each. -/
def revStep (field : Mword) (s : Scan) : Scan :=
  match bsrq field with
  | none =>
    ⟨s.result + ((0#64 &&& s.mask).toNat + (64#64 &&& ~~~s.mask).toNat), s.newmask, s.newmask⟩
  | some scan =>
    ⟨s.result + ((BitVec.ofNat 64 scan &&& s.mask).toNat + (64#64 &&& ~~~s.mask).toNat), 0#64, 0#64⟩

/-- `do … while (i > 0)` with `i` words left. -/
def revLoop (data : Fin N → Mword) (findset : Bool) : (i : ℕ) → i ≤ N → Scan → Scan
  | 0, _, s => s
  | i + 1, h, s => revLoop data findset i (Nat.le_of_succ_le h)
      (revStep (datafield data findset ⟨i, h⟩) s)

def multiscanRev (data : Fin N → Mword) (findset : Bool) : ℕ :=
  (revLoop data findset N le_rfl Scan.init).result

/-! ### The bits of the array -/

/-- Bit `j` of the array equals `findset`. -/
def Bit (data : Fin N → Mword) (findset : Bool) (j : ℕ) : Prop :=
  ∃ h : j / 64 < N, (data ⟨j / 64, h⟩).getLsbD (j % 64) = findset

theorem Bit.lt {data : Fin N → Mword} {findset : Bool} {j : ℕ} (h : Bit data findset j) :
    j < N * 64 := by
  obtain ⟨hlt, -⟩ := h
  omega

variable {data : Fin N → Mword} {findset : Bool}

/-- A word shows its bits of the array. -/
theorem getLsbD_datafield (i : Fin N) {k : ℕ} (hk : k < 64) :
    (datafield data findset i).getLsbD k = true ↔ Bit data findset (i * 64 + k) := by
  have hdiv : (i * 64 + k) / 64 = i := by omega
  have hmod : (i * 64 + k) % 64 = k := by omega
  have hbit : Bit data findset (i * 64 + k) ↔ (data i).getLsbD k = findset := by
    rw [Bit]
    simp only [hdiv, hmod]
    exact ⟨fun ⟨_, h⟩ => h, fun h => ⟨i.isLt, h⟩⟩
  rw [hbit, datafield]
  cases findset <;> simp [hk]

/-- An index is one of its word. -/
theorem eq_of_word {i j : ℕ} (hlow : i * 64 ≤ j) (hhigh : j < i * 64 + 64) :
    i * 64 + (j - i * 64) = j ∧ j - i * 64 < 64 := by omega

/-- A clear bit of a word is none of the array. -/
theorem not_bit_of_clear (i : Fin N) {j : ℕ} (hlow : i * 64 ≤ j) (hhigh : j < i * 64 + 64)
    (hclear : (datafield data findset i).getLsbD (j - i * 64) = false) : ¬ Bit data findset j := by
  obtain ⟨hword, hk⟩ := eq_of_word hlow hhigh
  rw [← hword, ← getLsbD_datafield i hk, hclear]
  exact Bool.false_ne_true

theorem alignDown_eq (idx : ℕ) : alignDown idx 64 = idx / 64 * 64 := by
  refine Nat.eq_of_testBit_eq fun k => ?_
  have hmask : (64 - 1).testBit k = decide (k < 6) := Nat.testBit_two_pow_sub_one 6 k
  have hshift : (idx / 64 * 64).testBit k = (decide (6 ≤ k) && idx.testBit k) := by
    rw [show idx / 64 * 64 = 2 ^ 6 * (idx / 2 ^ 6) by omega, Nat.testBit_two_pow_mul,
      Nat.testBit_div_two_pow]
    by_cases hk : 6 ≤ k
    · rw [Nat.sub_add_cancel hk]
    · simp [hk]
  rw [alignDown, Nat.testBit_ldiff, hmask, hshift, Bool.and_comm]
  by_cases hk : 6 ≤ k
  · simp [hk, Nat.not_lt.mpr hk]
  · simp [hk, Nat.lt_of_not_le hk]

/-- `lsb` alone is the scan of one word. -/
theorem lsb_firstOr (x : Mword) : FirstOr {k | x.getLsbD k = true} 64 (lsb x) := by
  rcases lt_or_ge (lsb x) 64 with hlt | hge
  · obtain ⟨hset, hclear⟩ := lsb_spec hlt
    refine .of_isLeast ⟨hset, fun k hk => ?_⟩
    by_contra hlow
    rw [Set.mem_ofPred_eq, hclear k (Nat.lt_of_not_le hlow)] at hk
    exact Bool.noConfusion hk
  · rw [le_antisymm (lsb_le x) hge]
    exact .of_empty (Set.eq_empty_iff_forall_notMem.mpr fun k hk => by
      rw [Set.mem_ofPred_eq, lsb_full hge k] at hk
      exact Bool.noConfusion hk)

/-! ### The portable scan -/

/-- From word `i` on: `field` holds what is left of the word, and nothing lies below it. -/
theorem nextLoop_firstOr {lo : ℕ} (i : Fin N) (field : Mword) (hlo : lo < i * 64 + 64)
    (hlow : ∀ j, lo ≤ j → Bit data findset j → i * 64 ≤ j)
    (hfield : ∀ k < 64, field.getLsbD k = true ↔ lo ≤ i * 64 + k ∧ Bit data findset (i * 64 + k)) :
    FirstOr {j | lo ≤ j ∧ Bit data findset j} (N * 64) (nextLoop data findset i (i * 64) field) := by
  have hshown : ∀ j, lo ≤ j → Bit data findset j → j < i * 64 + 64 →
      field.getLsbD (j - i * 64) = true := by
    intro j hj hbit hhigh
    obtain ⟨hword, hk⟩ := eq_of_word (hlow j hj hbit) hhigh
    rw [hfield _ hk, hword]
    exact ⟨hj, hbit⟩
  rw [nextLoop]
  split
  case isTrue hb =>
    obtain ⟨hset, hclear⟩ := lsb_spec hb
    refine .of_isLeast ⟨(hfield _ hb).mp hset, fun j ⟨hj, hbit⟩ => ?_⟩
    by_contra hlt
    have hword := hlow j hj hbit
    have hset := hshown j hj hbit (by omega)
    rw [hclear (j - i * 64) (by omega)] at hset
    cases hset
  case isFalse hb =>
    -- the word is exhausted
    have hnext : ∀ j, lo ≤ j → Bit data findset j → (i + 1) * 64 ≤ j := by
      intro j hj hbit
      by_contra hlt
      have hset := hshown j hj hbit (by omega)
      rw [lsb_full (Nat.le_of_not_lt hb) (j - i * 64)] at hset
      cases hset
    have hlsb : lsb field = 64 := le_antisymm (lsb_le field) (Nat.le_of_not_lt hb)
    rw [hlsb, ← Nat.succ_mul]
    split
    case isTrue h =>
      refine nextLoop_firstOr ⟨i + 1, h⟩ _ (by simp only; omega) hnext fun k hk => ?_
      rw [getLsbD_datafield _ hk, iff_and_self]
      simp only
      omega
    case isFalse h =>
      have hN : (i : ℕ) + 1 = N := by omega
      rw [Nat.succ_eq_add_one, hN]
      rw [hN] at hnext
      refine .of_empty (Set.eq_empty_iff_forall_notMem.mpr fun j ⟨hj, hbit⟩ => ?_)
      exact absurd hbit.lt (Nat.not_lt.mpr (hnext j hj hbit))
termination_by N - i

/-- `multiscan_next` finds the least index from `idx` on. -/
theorem multiscanNext_firstOr (data : Fin N → Mword) (idx : ℕ) (findset : Bool) :
    FirstOr {j | idx ≤ j ∧ Bit data findset j} (N * 64) (multiscanNext data idx findset) := by
  rw [multiscanNext]
  split
  case isTrue h =>
    refine .of_empty (Set.eq_empty_iff_forall_notMem.mpr fun j ⟨hj, hbit⟩ => ?_)
    exact absurd hbit.lt (Nat.not_lt.mpr (le_trans h hj))
  case isFalse h =>
    rw [alignDown_eq]
    refine nextLoop_firstOr ⟨idx / 64, _⟩ _ (by simp only; omega) (fun j hj _ => ?_) fun k hk => ?_
    · simp only
      omega
    · rw [BitVec.getLsbD_and, BitVec.getLsbD_not, getLsbD_bitmask _ hk, Bool.and_eq_true,
        getLsbD_datafield _ hk, and_comm]
      simp only [hk, decide_true, Bool.true_and, Bool.not_eq_true', decide_eq_false_iff_not]
      refine and_congr_left fun _ => ?_
      omega

/-! ### The branch-free scans -/

theorem bsfq_none {x : Mword} (h : bsfq x = none) (k : ℕ) : x.getLsbD k = false := by
  refine lsb_full ?_ k
  rw [lsb, ← bsfq, h, Option.getD_none]

theorem bsfq_some {x : Mword} {k : ℕ} (h : bsfq x = some k) :
    k < 64 ∧ x.getLsbD k = true ∧ ∀ j < k, x.getLsbD j = false := by
  obtain ⟨hset, hmem, hlow⟩ := List.find?_range_eq_some.mp h
  exact ⟨List.mem_range.mp hmem, hset, fun j hj => by simpa using hlow j hj⟩

theorem toNat_and_ones {k : ℕ} (hk : k < 64) : (BitVec.ofNat 64 k &&& ~~~0#64).toNat = k := by
  rw [show ~~~0#64 = BitVec.allOnes 64 from rfl, BitVec.and_allOnes, BitVec.toNat_ofNat]
  omega

/-- Where the scan is after the words below `i`. -/
structure Scanned (data : Fin N → Mword) (findset : Bool) (i : ℕ) (s : Scan) : Prop where
  same : s.newmask = s.mask
  found : s.mask = 0#64 ∧ IsLeast {j | Bit data findset j} s.result ∨
    s.mask = ~~~0#64 ∧ s.result = i * 64 ∧ ∀ j, Bit data findset j → i * 64 ≤ j

theorem scanned_step {i : ℕ} (h : i < N) {s : Scan} (hs : Scanned data findset i s) :
    Scanned data findset (i + 1) (scanStep (datafield data findset ⟨i, h⟩) s) := by
  obtain ⟨hsame, ⟨hmask, hleast⟩ | ⟨hmask, hres, hlow⟩⟩ := hs
  · -- behind the find nothing is added
    have hstep : ∀ field, scanStep field s = s := by
      intro field
      obtain ⟨result, mask, newmask⟩ := s
      simp only at hsame hmask
      subst hsame hmask
      rw [scanStep]
      cases bsfq field <;> simp
    rw [hstep]
    exact ⟨hsame, .inl ⟨hmask, hleast⟩⟩
  · cases hb : bsfq (datafield data findset ⟨i, h⟩) with
    | none =>
      simp only [scanStep, hb, hmask, hsame, hres]
      refine ⟨rfl, .inr ⟨rfl, ?_, fun j hbit => ?_⟩⟩
      · simp only [Nat.add_mul]
        rfl
      · by_contra hlt
        exact not_bit_of_clear ⟨i, h⟩ (hlow j hbit) (by simp only; omega) (bsfq_none hb _) hbit
    | some k =>
      obtain ⟨hk, hset, hclear⟩ := bsfq_some hb
      have hval : (BitVec.ofNat 64 k &&& ~~~0#64).toNat = k := toNat_and_ones hk
      have hstep : scanStep (datafield data findset ⟨i, h⟩) s = ⟨i * 64 + k, 0#64, 0#64⟩ := by
        simp only [scanStep, hb, hmask, hres, hval]
      have hbit : Bit data findset (i * 64 + k) := (getLsbD_datafield ⟨i, h⟩ hk).mp hset
      rw [hstep]
      refine ⟨rfl, .inl ⟨rfl, hbit, fun j hbit => ?_⟩⟩
      by_contra hge
      have hlt : j < i * 64 + k := Nat.lt_of_not_le hge
      have hlow := hlow j hbit
      exact not_bit_of_clear ⟨i, h⟩ hlow (by simp only; omega) (hclear _ (by simp only; omega)) hbit

theorem scanned_loop {i : ℕ} (hi : i ≤ N) {s : Scan} (hs : Scanned data findset i s) :
    Scanned data findset N (scanLoop data findset i s) := by
  rw [scanLoop]
  split
  case isTrue h => exact scanned_loop h (scanned_step h hs)
  case isFalse h => exact le_antisymm hi (Nat.not_lt.mp h) ▸ hs
termination_by N - i

/-- The branch-free scan finds what the portable one finds. -/
theorem multiscan_firstOr (data : Fin N → Mword) (findset : Bool) :
    FirstOr {j | Bit data findset j} (N * 64) (multiscan data findset) := by
  have hinit : Scanned data findset 0 Scan.init :=
    ⟨rfl, .inr ⟨rfl, rfl, fun j _ => by omega⟩⟩
  obtain ⟨_, ⟨_, hleast⟩ | ⟨_, hres, hlow⟩⟩ := scanned_loop (Nat.zero_le N) hinit
  · exact .of_isLeast hleast
  · refine .inr ⟨Set.eq_empty_iff_forall_notMem.mpr fun j hbit => ?_, hres⟩
    exact absurd hbit.lt (Nat.not_lt.mpr (hlow j hbit))

theorem multiscan_eq_next (data : Fin N → Mword) (findset : Bool) :
    multiscan data findset = multiscanNext data 0 findset := by
  have hnext := multiscanNext_firstOr data 0 findset
  simp only [Nat.zero_le, true_and] at hnext
  exact (multiscan_firstOr data findset).unique hnext

/-- The highest set bit is the lowest of the reversed range. -/
theorem bsrq_none {x : Mword} (h : bsrq x = none) (k : ℕ) : x.getLsbD k = false := by
  by_contra hne
  rw [Bool.not_eq_false] at hne
  have hc := List.find?_eq_none.mp h k
  rw [List.mem_reverse, List.mem_range] at hc
  exact hc (BitVec.lt_of_getLsbD hne) hne

theorem bsrq_some {x : Mword} {k : ℕ} (h : bsrq x = some k) :
    k < 64 ∧ x.getLsbD k = true ∧ ∀ j, k < j → x.getLsbD j = false := by
  obtain ⟨hset, as, bs, hsplit, has⟩ := List.find?_eq_some_iff_append.mp h
  have hmem : k ∈ (List.range 64).reverse := hsplit ▸ by simp
  rw [List.mem_reverse, List.mem_range] at hmem
  refine ⟨hmem, hset, fun j hj => ?_⟩
  by_contra hne
  rw [Bool.not_eq_false] at hne
  have hjmem : j ∈ as ++ k :: bs := by
    rw [← hsplit, List.mem_reverse, List.mem_range]
    exact BitVec.lt_of_getLsbD hne
  have hsorted : (as ++ k :: bs).Pairwise (· > ·) := by
    rw [← hsplit, List.pairwise_reverse]
    exact List.pairwise_lt_range
  rw [List.mem_append, List.mem_cons] at hjmem
  rcases hjmem with hja | rfl | hjb
  · exact absurd (has j hja) (by simp [hne])
  · exact absurd hj (lt_irrefl _)
  · have := (List.pairwise_cons.mp (List.pairwise_append.mp hsorted).2.1).1 j hjb
    omega

/-- Where the reverse scan is with `i` words left. -/
structure RevScanned (data : Fin N → Mword) (findset : Bool) (i : ℕ) (s : Scan) : Prop where
  same : s.newmask = s.mask
  found : s.mask = 0#64 ∧ IsGreatest {j | Bit data findset j} (i * 64 + s.result) ∨
    s.mask = ~~~0#64 ∧ s.result = 0 ∧ ∀ j, Bit data findset j → j < i * 64

theorem revScanned_step {i : ℕ} (h : i < N) {s : Scan} (hs : RevScanned data findset (i + 1) s) :
    RevScanned data findset i (revStep (datafield data findset ⟨i, h⟩) s) := by
  obtain ⟨hsame, ⟨hmask, hgreatest⟩ | ⟨hmask, hres, hhigh⟩⟩ := hs
  · -- behind the find every word adds its width
    have hstep : ∀ field, revStep field s = ⟨s.result + 64, 0#64, 0#64⟩ := by
      intro field
      rw [revStep]
      cases bsrq field <;> simp [hmask, hsame]
    rw [hstep]
    refine ⟨rfl, .inl ⟨rfl, ?_⟩⟩
    rwa [show i * 64 + (s.result + 64) = (i + 1) * 64 + s.result by omega]
  · cases hb : bsrq (datafield data findset ⟨i, h⟩) with
    | none =>
      have hstep : revStep (datafield data findset ⟨i, h⟩) s = ⟨0, ~~~0#64, ~~~0#64⟩ := by
        simp only [revStep, hb, hmask, hsame, hres]
        rfl
      rw [hstep]
      refine ⟨rfl, .inr ⟨rfl, rfl, fun j hbit => ?_⟩⟩
      by_contra hge
      have hhigh := hhigh j hbit
      exact not_bit_of_clear ⟨i, h⟩ (Nat.le_of_not_lt hge) (by simp only; omega) (bsrq_none hb _) hbit
    | some k =>
      obtain ⟨hk, hset, hclear⟩ := bsrq_some hb
      have hval : (BitVec.ofNat 64 k &&& ~~~0#64).toNat = k := toNat_and_ones hk
      have hstep : revStep (datafield data findset ⟨i, h⟩) s = ⟨k, 0#64, 0#64⟩ := by
        simp only [revStep, hb, hmask, hres, hval]
        simp
      have hbit : Bit data findset (i * 64 + k) := (getLsbD_datafield ⟨i, h⟩ hk).mp hset
      rw [hstep]
      refine ⟨rfl, .inl ⟨rfl, hbit, fun j hbit => ?_⟩⟩
      by_contra hle
      have hgt : i * 64 + k < j := Nat.lt_of_not_le hle
      have hhigh := hhigh j hbit
      exact not_bit_of_clear ⟨i, h⟩ (by simp only; omega) (by simp only; omega)
        (hclear _ (by simp only; omega)) hbit

theorem revScanned_loop {i : ℕ} (hi : i ≤ N) {s : Scan} (hs : RevScanned data findset i s) :
    RevScanned data findset 0 (revLoop data findset i hi s) := by
  induction i generalizing s with
  | zero => exact hs
  | succ i ih => exact ih _ (revScanned_step hi hs)

/-- The reverse scan finds the greatest index, if there is one. -/
theorem multiscanRev_isGreatest {j : ℕ} (hbit : Bit data findset j) :
    IsGreatest {j | Bit data findset j} (multiscanRev data findset) := by
  have hinit : RevScanned data findset N Scan.init := ⟨rfl, .inr ⟨rfl, rfl, fun _ => Bit.lt⟩⟩
  obtain ⟨_, ⟨_, hgreatest⟩ | ⟨_, _, hnone⟩⟩ := revScanned_loop le_rfl hinit
  · rwa [Nat.zero_mul, Nat.zero_add] at hgreatest
  · exact absurd (hnone j hbit) (by omega)

end Libfibre.MultiScan
