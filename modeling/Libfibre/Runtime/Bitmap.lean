import Mathlib.Algebra.Group.Nat.Defs
import Mathlib.Data.List.Basic
import Mathlib.Data.Nat.Count

/-! `Bitmap<64>` (`Bitmap.h`): one machine word, with `lsb` and `bitmask` of `Platform.h` under it.
    `find` is the lowest set (or clear) bit of the word, 64 if there is none, and `findnext` the
    lowest one not below its argument: the argument itself counts, which is what the callers of
    `HierarchicalBitmap::findnext` rely on.

        findnext idx:    0 ··· idx-1 │ idx ··· 63
                         masked out  │ lowest set bit from here on -/

namespace Libfibre.Bitmap

/-- `mword`, and `bitsize<mword>()`. -/
abbrev Mword := BitVec 64

/-- `lsb`: count of trailing zeros, 64 for a word without a set bit. -/
def lsb (x : Mword) : ℕ := ((List.range 64).find? fun i => x.getLsbD i).getD 64

/-- `bitmask<mword>(Width)`: the low `Width` bits. -/
def bitmask (width : ℕ) : Mword :=
  if width = 64 then BitVec.allOnes 64 else BitVec.ofNat 64 (2 ^ width - 1)

def test (bits : Mword) (idx : ℕ) : Bool := decide (bits &&& 1#64 <<< idx ≠ 0)

def set (bits : Mword) (idx : ℕ) : Mword := bits ||| 1#64 <<< idx

def clr (bits : Mword) (idx : ℕ) : Mword := bits &&& ~~~(1#64 <<< idx)

def flp (bits : Mword) (idx : ℕ) : Mword := bits ^^^ 1#64 <<< idx

/-- `popcount`. -/
def count (bits : Mword) : ℕ := Nat.count (fun i => bits.getLsbD i = true) 64

def find (bits : Mword) (findset : Bool) : ℕ := lsb (if findset then bits else ~~~bits)

def findnext (bits : Mword) (idx : ℕ) (findset : Bool) : ℕ :=
  lsb ((if findset then bits else ~~~bits) &&& ~~~bitmask idx)

/-! ### The word, bit by bit -/

theorem getLsbD_bit (idx i : ℕ) :
    (1#64 <<< idx).getLsbD i = (decide (i < 64) && decide (i = idx)) := by
  rw [BitVec.getLsbD_shiftLeft, BitVec.getLsbD_one]
  by_cases h : i = idx
  · subst h; simp
  · by_cases hle : idx ≤ i
    · simp [h, show i - idx ≠ 0 by omega]
    · simp [h, show i < idx by omega]

theorem test_eq (bits : Mword) (idx : ℕ) : test bits idx = bits.getLsbD idx := by
  have hbit : ∀ i, (bits &&& 1#64 <<< idx).getLsbD i
      = (bits.getLsbD i && (decide (i < 64) && decide (i = idx))) := by
    intro i
    rw [BitVec.getLsbD_and, getLsbD_bit]
  cases hb : bits.getLsbD idx with
  | true =>
    have hlt : idx < 64 := BitVec.lt_of_getLsbD hb
    rw [test, decide_eq_true_iff]
    intro hzero
    have hself := hbit idx
    rw [hzero, hb] at hself
    simp [hlt] at hself
  | false =>
    rw [test, decide_eq_false_iff_not, not_not]
    refine BitVec.eq_of_getLsbD_eq fun i _ => ?_
    rw [hbit]
    by_cases hi : i = idx
    · subst hi; simp [hb]
    · simp [hi]

theorem test_lt {bits : Mword} {idx : ℕ} (h : test bits idx = true) : idx < 64 :=
  BitVec.lt_of_getLsbD (test_eq bits idx ▸ h)

@[simp] theorem test_zero (idx : ℕ) : test 0#64 idx = false := by
  rw [test_eq, BitVec.getLsbD_zero]

theorem test_set {bits : Mword} {idx : ℕ} (h : idx < 64) (k : ℕ) :
    test (set bits idx) k = (decide (k = idx) || test bits k) := by
  rw [test_eq, test_eq, set, BitVec.getLsbD_or, getLsbD_bit, Bool.or_comm]
  by_cases hk : k = idx
  · subst hk; simp [h]
  · simp [hk]

theorem test_clr {bits : Mword} {idx : ℕ} (k : ℕ) :
    test (clr bits idx) k = (!decide (k = idx) && test bits k) := by
  rw [test_eq, test_eq, clr, BitVec.getLsbD_and, BitVec.getLsbD_not, getLsbD_bit, Bool.and_comm]
  by_cases hk : k = idx
  · subst hk; simp
  · by_cases hlt : k < 64
    · simp [hk, hlt]
    · simp [hk, BitVec.getLsbD_of_ge bits k (by omega)]

theorem test_flp {bits : Mword} {idx : ℕ} (h : idx < 64) (k : ℕ) :
    test (flp bits idx) k = (decide (k = idx) ^^ test bits k) := by
  rw [test_eq, test_eq, flp, BitVec.getLsbD_xor, getLsbD_bit, Bool.xor_comm]
  by_cases hk : k = idx
  · subst hk; simp [h]
  · simp [hk]

theorem eq_zero_iff {bits : Mword} : bits = 0#64 ↔ ∀ i < 64, bits.getLsbD i = false := by
  constructor
  · rintro rfl i _
    exact BitVec.getLsbD_zero
  · intro h
    exact BitVec.eq_of_getLsbD_eq fun i hi => by rw [h i hi, BitVec.getLsbD_zero]

theorem eq_ones_iff {bits : Mword} : bits = ~~~0#64 ↔ ∀ i < 64, bits.getLsbD i = true := by
  have hones : ∀ i < 64, (~~~0#64).getLsbD i = true := by
    intro i hi
    rw [BitVec.getLsbD_not, BitVec.getLsbD_zero, decide_eq_true hi]
    rfl
  constructor
  · rintro rfl i hi
    exact hones i hi
  · intro h
    exact BitVec.eq_of_getLsbD_eq fun i hi => by rw [h i hi, hones i hi]

/-! ### The scans -/

/-- `lsb` is the lowest set bit. -/
theorem lsb_eq {x : Mword} {k : ℕ} (hk : x.getLsbD k = true) (hlow : ∀ j < k, x.getLsbD j = false) :
    lsb x = k := by
  have hfind : (List.range 64).find? (fun i => x.getLsbD i) = some k :=
    List.find?_range_eq_some.mpr
      ⟨hk, List.mem_range.mpr (BitVec.lt_of_getLsbD hk), fun j hj => by rw [hlow j hj]; rfl⟩
  rw [lsb, hfind, Option.getD_some]

/-- Below 64 `lsb` is a set bit, and no lower bit is set. -/
theorem lsb_spec {x : Mword} (h : lsb x < 64) :
    x.getLsbD (lsb x) = true ∧ ∀ j < lsb x, x.getLsbD j = false := by
  cases hfind : (List.range 64).find? (fun i => x.getLsbD i) with
  | none => rw [lsb, hfind] at h; exact absurd h (by decide)
  | some k =>
    have hk : lsb x = k := by rw [lsb, hfind, Option.getD_some]
    obtain ⟨hset, _, hlow⟩ := List.find?_range_eq_some.mp hfind
    rw [hk]
    exact ⟨hset, fun j hj => by simpa using hlow j hj⟩

/-- `lsb` answers 64 only for the empty word. -/
theorem lsb_full {x : Mword} (h : 64 ≤ lsb x) (i : ℕ) : x.getLsbD i = false := by
  by_contra hne
  rw [Bool.not_eq_false] at hne
  cases hfind : (List.range 64).find? (fun i => x.getLsbD i) with
  | none =>
    have := List.find?_range_eq_none.mp hfind i (BitVec.lt_of_getLsbD hne)
    rw [hne] at this
    exact Bool.noConfusion this
  | some k =>
    rw [lsb, hfind, Option.getD_some] at h
    have := List.mem_range.mp (List.find?_range_eq_some.mp hfind).2.1
    omega

theorem lsb_le (x : Mword) : lsb x ≤ 64 := by
  cases hfind : (List.range 64).find? (fun i => x.getLsbD i) with
  | none => simp [lsb, hfind]
  | some k =>
    rw [lsb, hfind, Option.getD_some]
    exact Nat.le_of_lt (List.mem_range.mp (List.find?_range_eq_some.mp hfind).2.1)

/-- `find` below 64 is the lowest set bit. -/
theorem find_spec {bits : Mword} (h : find bits true < 64) :
    test bits (find bits true) = true ∧ ∀ j < find bits true, test bits j = false := by
  rw [find, if_pos rfl] at *
  rw [test_eq]
  exact ⟨(lsb_spec h).1, fun j hj => (test_eq bits j).trans ((lsb_spec h).2 j hj)⟩

theorem find_full {bits : Mword} (h : 64 ≤ find bits true) (k : ℕ) : test bits k = false := by
  rw [find, if_pos rfl] at h
  rw [test_eq]
  exact lsb_full h k

/-- `find(false)` below 64 is a clear bit. -/
theorem find_clear {bits : Mword} (h : find bits false < 64) :
    test bits (find bits false) = false := by
  rw [find, if_neg Bool.false_ne_true] at *
  have hset := (lsb_spec h).1
  rw [BitVec.getLsbD_not] at hset
  rw [test_eq]
  simpa [h] using hset

/-- `find(false)` answers 64 only for the full word. -/
theorem find_clear_full {bits : Mword} (h : 64 ≤ find bits false) {k : ℕ} (hk : k < 64) :
    test bits k = true := by
  rw [find, if_neg Bool.false_ne_true] at h
  have hset := lsb_full h k
  rw [BitVec.getLsbD_not] at hset
  rw [test_eq]
  simpa [hk] using hset

theorem getLsbD_bitmask (width : ℕ) {i : ℕ} (hi : i < 64) :
    (bitmask width).getLsbD i = decide (i < width) := by
  rw [bitmask]
  split
  case isTrue h => rw [BitVec.getLsbD_allOnes, h]
  case isFalse h =>
    rw [BitVec.getLsbD_ofNat, Nat.testBit_two_pow_sub_one]
    simp [hi]

/-- A scan that starts at a set bit stays there. -/
theorem findnext_self {bits : Mword} {idx : ℕ} (h : test bits idx = true) :
    findnext bits idx true = idx := by
  have hlt : idx < 64 := test_lt h
  rw [findnext, if_pos rfl]
  refine lsb_eq ?_ fun j hj => ?_
  · rw [BitVec.getLsbD_and, BitVec.getLsbD_not, getLsbD_bitmask idx hlt, ← test_eq, h]
    simp [hlt]
  · rw [BitVec.getLsbD_and, BitVec.getLsbD_not, getLsbD_bitmask idx (by omega)]
    simp [hj]

end Libfibre.Bitmap
