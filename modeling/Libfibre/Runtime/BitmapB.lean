import Libfibre.Runtime.MultiScan
import Mathlib.Data.Finset.Card

/-! `Bitmap<B>` (`Bitmap.h`) for every `B`: an array of words, and for `B = 64` a specialisation on one
    word that has texts of its own for the operations that address a word or go through all of them.

        B = 64:   bits                          operations of `Bitmap`
        else:     bits[0] · · · bits[N - 1]     word idx / 64, bit idx % 64; recursion over words

    Both mean a set of indices below `64 * N`. `filled` alone does not: the constructor it calls
    fills the first word only, where `setB` fills all. -/

namespace Libfibre
open Bitmap Search

/-- `divup` (`Platform.h`). -/
def divup (n d : ℕ) : ℕ := (n - 1) / d + 1

/-- `Bitmap<B>`; `Bitmap<64>` has its one word for an array. -/
structure BitmapB (B : ℕ) where
  bits : Fin (divup B 64) → Mword

namespace BitmapB

variable {B : ℕ}

/-- `N`. -/
abbrev words (B : ℕ) : ℕ := divup B 64

/-- `bits[i]`; `valid` indices have a word. -/
def word (b : BitmapB B) (i : ℕ) : Mword := if h : i < words B then b.bits ⟨i, h⟩ else 0#64

/-- An assignment to `bits[i]`. -/
def update (b : BitmapB B) (i : ℕ) (f : Mword → Mword) : BitmapB B :=
  ⟨fun k => if k = i then f (b.bits k) else b.bits k⟩

/-- `valid`: the index is in the array of words. -/
def valid (B idx : ℕ) : Prop := idx < words B * 64

instance (B idx : ℕ) : Decidable (valid B idx) := inferInstanceAs (Decidable (_ < _))

/-- `Bitmap(mword b)`: the array is initialised from `{b}`, so later words are zero. -/
def ofWord (w : Mword) : BitmapB B := ⟨fun i => if (i : ℕ) = 0 then w else 0#64⟩

/-- `filled()`: the first word is all ones, and the others are zero. -/
def filled : BitmapB B := ofWord (~~~0#64)

/-- `setB`: all bits of all words. -/
def setB (_ : BitmapB B) : BitmapB B := ⟨fun _ => ~~~0#64⟩

/-- `clrB`: no bit of any word. -/
def clrB (_ : BitmapB B) : BitmapB B := ⟨fun _ => 0#64⟩

/-- `flpB`: every word flipped. -/
def flpB (b : BitmapB B) : BitmapB B := ⟨fun i => ~~~b.bits i⟩

/-- `set`: in the word that the index is in; the specialisation for 64 bits has one word. -/
def set (b : BitmapB B) (idx : ℕ) : BitmapB B :=
  if B = 64 then b.update 0 (Bitmap.set · idx) else b.update (idx / 64) (Bitmap.set · (idx % 64))

/-- `clr`, in the same word. -/
def clr (b : BitmapB B) (idx : ℕ) : BitmapB B :=
  if B = 64 then b.update 0 (Bitmap.clr · idx) else b.update (idx / 64) (Bitmap.clr · (idx % 64))

/-- `flp`, in the same word. -/
def flp (b : BitmapB B) (idx : ℕ) : BitmapB B :=
  if B = 64 then b.update 0 (Bitmap.flp · idx) else b.update (idx / 64) (Bitmap.flp · (idx % 64))

/-- `test`, of the same word. -/
def test (b : BitmapB B) (idx : ℕ) : Bool :=
  if B = 64 then Bitmap.test (b.word 0) idx else Bitmap.test (b.word (idx / 64)) (idx % 64)

/-- `BitmapEmptyHelper<X>`. -/
def emptyHelper (b : BitmapB B) : ℕ → Mword
  | 0 => b.word 0
  | X + 1 => b.word (X + 1) ||| b.emptyHelper X

/-- `BitmapFullHelper<X>`. -/
def fullHelper (b : BitmapB B) : ℕ → Mword
  | 0 => b.word 0
  | X + 1 => b.word (X + 1) &&& b.fullHelper X

/-- `BitmapCountHelper<X>`. -/
def countHelper (b : BitmapB B) : ℕ → ℕ
  | 0 => Bitmap.count (b.word 0)
  | X + 1 => Bitmap.count (b.word (X + 1)) + b.countHelper X

/-- `empty`: the words are or-ed together. -/
def empty (b : BitmapB B) : Bool :=
  if B = 64 then b.word 0 == 0#64 else b.emptyHelper (words B - 1) == 0#64

/-- `full`: the words are and-ed together. -/
def full (b : BitmapB B) : Bool :=
  if B = 64 then b.word 0 == ~~~0#64 else b.fullHelper (words B - 1) == ~~~0#64

/-- `count`: the bits of all words, those above `B` included. -/
def count (b : BitmapB B) : ℕ :=
  if B = 64 then Bitmap.count (b.word 0) else b.countHelper (words B - 1)

/-- `find`: the first set or clear bit, or the number of bits if there is none. -/
def find (b : BitmapB B) (findset : Bool) : ℕ :=
  if B = 64 then Bitmap.find (b.word 0) findset else MultiScan.multiscan b.bits findset

/-- `findnext`: the first one from `idx` on. -/
def findnext (b : BitmapB B) (idx : ℕ) (findset : Bool) : ℕ :=
  if B = 64 then Bitmap.findnext (b.word 0) idx findset
  else MultiScan.multiscanNext b.bits idx findset

/-! ### Membership -/

/-- Index `j` is in the bitmap. -/
def mem (b : BitmapB B) (j : ℕ) : Bool := (b.word (j / 64)).getLsbD (j % 64)

@[simp] theorem words_64 : words 64 = 1 := rfl

theorem word_eq (b : BitmapB B) {i : ℕ} (h : i < words B) : b.word i = b.bits ⟨i, h⟩ := dif_pos h

theorem word_of_ge (b : BitmapB B) {i : ℕ} (h : words B ≤ i) : b.word i = 0#64 :=
  dif_neg (Nat.not_lt.mpr h)

theorem mem_valid {b : BitmapB B} {j : ℕ} (h : b.mem j = true) : valid B j := by
  by_contra hj
  rw [valid] at hj
  rw [mem, word_of_ge b (by omega), BitVec.getLsbD_zero] at h
  exact Bool.noConfusion h

theorem mem_word (b : BitmapB B) (i : ℕ) {k : ℕ} (hk : k < 64) :
    b.mem (i * 64 + k) = (b.word i).getLsbD k := by
  rw [mem, show (i * 64 + k) / 64 = i by omega, show (i * 64 + k) % 64 = k by omega]

/-- The bits that the scans look for are the members, or the indices that are none. -/
theorem bit_iff (b : BitmapB B) (findset : Bool) (j : ℕ) :
    MultiScan.Bit b.bits findset j ↔ valid B j ∧ b.mem j = findset := by
  constructor
  · intro hbit
    obtain ⟨h, hb⟩ := hbit
    refine ⟨MultiScan.Bit.lt ⟨h, hb⟩, ?_⟩
    rw [mem, word_eq b h, hb]
  · rintro ⟨hv, hb⟩
    rw [valid] at hv
    have h : j / 64 < words B := by omega
    exact ⟨h, by rw [← word_eq b h]; exact hb⟩

theorem word_update (b : BitmapB B) (f : Mword → Mword) {i : ℕ} (hi : i < words B) (k : ℕ) :
    (b.update i f).word k = if k = i then f (b.word i) else b.word k := by
  by_cases hk : k < words B
  · rw [word_eq _ hk, word_eq b hk, word_eq b hi, update]
    by_cases h : k = i
    · subst h; simp
    · simp [h]
  · rw [word_of_ge _ (Nat.le_of_not_lt hk), word_of_ge b (Nat.le_of_not_lt hk), if_neg (by omega)]

/-- The specialisation addresses the same bit. -/
theorem dispatch {α : Type} {idx : ℕ} (h : valid B idx) (f : ℕ → ℕ → α) :
    (if B = 64 then f 0 idx else f (idx / 64) (idx % 64)) = f (idx / 64) (idx % 64) := by
  split
  case isTrue hB =>
    subst hB
    rw [valid, words_64] at h
    rw [show idx / 64 = 0 by omega, show idx % 64 = idx by omega]
  case isFalse => rfl

theorem set_eq (b : BitmapB B) {idx : ℕ} (h : valid B idx) :
    b.set idx = b.update (idx / 64) (Bitmap.set · (idx % 64)) :=
  dispatch h fun i k => b.update i (Bitmap.set · k)

theorem clr_eq (b : BitmapB B) {idx : ℕ} (h : valid B idx) :
    b.clr idx = b.update (idx / 64) (Bitmap.clr · (idx % 64)) :=
  dispatch h fun i k => b.update i (Bitmap.clr · k)

theorem flp_eq (b : BitmapB B) {idx : ℕ} (h : valid B idx) :
    b.flp idx = b.update (idx / 64) (Bitmap.flp · (idx % 64)) :=
  dispatch h fun i k => b.update i (Bitmap.flp · k)

theorem test_eq_mem (b : BitmapB B) {idx : ℕ} (h : valid B idx) : b.test idx = b.mem idx :=
  (dispatch h fun i k => Bitmap.test (b.word i) k).trans (Bitmap.test_eq _ _)

/-- An update of one word, index by index. -/
theorem mem_update (b : BitmapB B) {idx : ℕ} (h : valid B idx) {f : Mword → Mword}
    {g : Bool → Bool → Bool} (hg : g false = id)
    (hf : ∀ k, Bitmap.test (f (b.word (idx / 64))) k =
      g (decide (k = idx % 64)) (Bitmap.test (b.word (idx / 64)) k)) (j : ℕ) :
    (b.update (idx / 64) f).mem j = g (decide (j = idx)) (b.mem j) := by
  rw [valid] at h
  rw [mem, word_update b f (by omega), mem]
  by_cases hw : j / 64 = idx / 64
  · rw [if_pos hw, ← Bitmap.test_eq, hf, Bitmap.test_eq, hw]
    congr 1
    rw [decide_eq_decide]
    omega
  · rw [if_neg hw, decide_eq_false (by rintro rfl; exact hw rfl), hg]
    rfl

theorem mem_set (b : BitmapB B) {idx : ℕ} (h : valid B idx) (j : ℕ) :
    (b.set idx).mem j = (decide (j = idx) || b.mem j) := by
  rw [set_eq b h]
  have hword : ∀ k, Bitmap.test (Bitmap.set (b.word (idx / 64)) (idx % 64)) k =
      (decide (k = idx % 64) || Bitmap.test (b.word (idx / 64)) k) :=
    Bitmap.test_set (Nat.mod_lt idx (by decide))
  exact mem_update b h (f := (Bitmap.set · (idx % 64))) (g := or) rfl hword j

theorem mem_clr (b : BitmapB B) {idx : ℕ} (h : valid B idx) (j : ℕ) :
    (b.clr idx).mem j = (!decide (j = idx) && b.mem j) := by
  rw [clr_eq b h]
  exact mem_update b h (f := (Bitmap.clr · (idx % 64))) (g := fun p m => !p && m) rfl
    (fun k => Bitmap.test_clr k) j

theorem mem_flp (b : BitmapB B) {idx : ℕ} (h : valid B idx) (j : ℕ) :
    (b.flp idx).mem j = (decide (j = idx) ^^ b.mem j) := by
  rw [flp_eq b h]
  have hword : ∀ k, Bitmap.test (Bitmap.flp (b.word (idx / 64)) (idx % 64)) k =
      (decide (k = idx % 64) ^^ Bitmap.test (b.word (idx / 64)) k) :=
    Bitmap.test_flp (Nat.mod_lt idx (by decide))
  exact mem_update b h (f := (Bitmap.flp · (idx % 64))) (g := xor) (by funext x; cases x <;> rfl)
    hword j

theorem mem_of_word {b : BitmapB B} {w : Mword} {c : Bool} (hb : ∀ i, b.bits i = w)
    (hw : ∀ k < 64, w.getLsbD k = c) {j : ℕ} (h : valid B j) : b.mem j = c := by
  rw [valid] at h
  rw [mem, word_eq b (by omega), hb, hw _ (by omega)]

theorem mem_setB (b : BitmapB B) {j : ℕ} (h : valid B j) : b.setB.mem j = true :=
  mem_of_word (fun _ => rfl) (eq_ones_iff.mp rfl) h

theorem mem_clrB (b : BitmapB B) (j : ℕ) : b.clrB.mem j = false := by
  by_contra hne
  rw [Bool.not_eq_false] at hne
  rw [mem_of_word (fun _ => rfl) (eq_zero_iff.mp rfl) (mem_valid hne)] at hne
  exact Bool.noConfusion hne

theorem mem_flpB (b : BitmapB B) {j : ℕ} (h : valid B j) : b.flpB.mem j = !b.mem j := by
  rw [valid] at h
  have hj : j / 64 < words B := by omega
  rw [mem, mem, word_eq _ hj, word_eq b hj, flpB, BitVec.getLsbD_not]
  simp [Nat.mod_lt j (by decide : 64 > 0)]

/-! ### The helpers and the scans -/

theorem forall_le_succ {p : ℕ → Prop} {n : ℕ} : p (n + 1) ∧ (∀ i ≤ n, p i) ↔ ∀ i ≤ n + 1, p i := by
  constructor
  · rintro ⟨hlast, hinit⟩ i hi
    rcases Nat.le_succ_iff.mp hi with hle | rfl
    · exact hinit i hle
    · exact hlast
  · intro h
    exact ⟨h _ le_rfl, fun i hi => h i (Nat.le_succ_of_le hi)⟩

theorem emptyHelper_eq_zero (b : BitmapB B) (X : ℕ) :
    b.emptyHelper X = 0#64 ↔ ∀ i ≤ X, b.word i = 0#64 := by
  induction X with
  | zero => simp [emptyHelper]
  | succ X ih =>
    rw [emptyHelper, BitVec.or_eq_zero_iff, ih]
    exact forall_le_succ (p := fun i => b.word i = 0#64)

theorem fullHelper_eq_ones (b : BitmapB B) (X : ℕ) :
    b.fullHelper X = ~~~0#64 ↔ ∀ i ≤ X, b.word i = ~~~0#64 := by
  have hand : ∀ x y : Mword, x &&& y = ~~~0#64 ↔ x = ~~~0#64 ∧ y = ~~~0#64 := by
    intro x y
    simp only [eq_ones_iff, BitVec.getLsbD_and, Bool.and_eq_true]
    exact ⟨fun h => ⟨fun i hi => (h i hi).1, fun i hi => (h i hi).2⟩,
      fun h i hi => ⟨h.1 i hi, h.2 i hi⟩⟩
  induction X with
  | zero => simp [fullHelper]
  | succ X ih =>
    rw [fullHelper, hand, and_congr_right fun _ => ih]
    exact forall_le_succ (p := fun i => b.word i = ~~~0#64)

/-- A predicate of all words is one of all indices. -/
theorem forall_word {p : Bool → Prop} (b : BitmapB B) :
    (∀ i ≤ words B - 1, ∀ k < 64, p ((b.word i).getLsbD k)) ↔ ∀ j, valid B j → p (b.mem j) := by
  constructor
  · intro h j hj
    rw [valid] at hj
    exact h _ (by omega) _ (Nat.mod_lt _ (by decide))
  · intro h i hi k hk
    have hN : 0 < words B := Nat.succ_pos _
    rw [← mem_word b i hk]
    exact h _ (by rw [valid]; omega)

theorem empty_iff (b : BitmapB B) : b.empty = true ↔ ∀ j, b.mem j = false := by
  have hwords : b.empty = true ↔ ∀ i ≤ words B - 1, b.word i = 0#64 := by
    rw [empty]
    split
    case isTrue hB => subst hB; simp
    case isFalse => rw [beq_iff_eq, emptyHelper_eq_zero]
  rw [hwords]
  simp only [eq_zero_iff]
  rw [forall_word (p := (· = false))]
  constructor
  · intro h j
    by_contra hne
    rw [Bool.not_eq_false] at hne
    exact absurd hne (by rw [h j (mem_valid hne)]; exact Bool.false_ne_true)
  · intro h j _
    exact h j

theorem full_iff (b : BitmapB B) : b.full = true ↔ ∀ j, valid B j → b.mem j = true := by
  have hwords : b.full = true ↔ ∀ i ≤ words B - 1, b.word i = ~~~0#64 := by
    rw [full]
    split
    case isTrue hB => subst hB; simp
    case isFalse => rw [beq_iff_eq, fullHelper_eq_ones]
  rw [hwords]
  simp only [eq_ones_iff]
  exact forall_word (p := (· = true)) b

theorem count_congr {p q : ℕ → Prop} [DecidablePred p] [DecidablePred q] {n : ℕ}
    (h : ∀ k < n, p k ↔ q k) : Nat.count p n = Nat.count q n :=
  le_antisymm (Nat.count_mono_left fun k hk => (h k hk).mp)
    (Nat.count_mono_left fun k hk => (h k hk).mpr)

theorem countHelper_eq (b : BitmapB B) (X : ℕ) :
    b.countHelper X = Nat.count (fun j => b.mem j = true) ((X + 1) * 64) := by
  induction X with
  | zero =>
    rw [countHelper, Bitmap.count, Nat.zero_add, Nat.one_mul]
    refine count_congr fun k hk => ?_
    rw [← mem_word b 0 hk, Nat.zero_mul, Nat.zero_add]
  | succ X ih =>
    rw [countHelper, ih, Nat.add_mul (X + 1), Nat.one_mul, Nat.count_add, Nat.add_comm, Bitmap.count]
    congr 1
    refine count_congr fun k hk => ?_
    rw [mem_word b _ hk]

/-- The set that a bitmap stands for. -/
def toSet (b : BitmapB B) : Finset ℕ := (Finset.range (words B * 64)).filter (b.mem · = true)

theorem mem_toSet {b : BitmapB B} {j : ℕ} : j ∈ b.toSet ↔ b.mem j = true := by
  rw [toSet, Finset.mem_filter, Finset.mem_range]
  exact ⟨And.right, fun h => ⟨mem_valid h, h⟩⟩

theorem count_eq (b : BitmapB B) : b.count = b.toSet.card := by
  have hN : words B - 1 + 1 = words B := rfl
  have hcount : b.count = b.countHelper (words B - 1) := by
    rw [count]
    split
    case isTrue hB => subst hB; rfl
    case isFalse => rfl
  rw [hcount, countHelper_eq, hN, Nat.count_eq_card_filter_range, toSet]

/-- The one word of `Bitmap<64>` is the array. -/
theorem bit_word (b : BitmapB 64) (findset : Bool) (k : ℕ) :
    (if findset then b.word 0 else ~~~b.word 0).getLsbD k = true ↔
      MultiScan.Bit b.bits findset k := by
  rw [bit_iff, valid, words_64, Nat.one_mul]
  rcases lt_or_ge k 64 with hk | hk
  · have hmem : b.mem k = (b.word 0).getLsbD k := by
      rw [← mem_word b 0 hk, Nat.zero_mul, Nat.zero_add]
    cases findset <;> simp [hk, hmem]
  · rw [BitVec.getLsbD_of_ge _ k hk]
    exact ⟨fun h => Bool.noConfusion h, fun h => absurd h.1 (Nat.not_lt.mpr hk)⟩

theorem findnext_firstOr (b : BitmapB B) (idx : ℕ) (findset : Bool) :
    FirstOr {j | idx ≤ j ∧ MultiScan.Bit b.bits findset j} (words B * 64)
      (b.findnext idx findset) := by
  rw [findnext]
  split
  case isTrue hB =>
    subst hB
    have hset : {j | idx ≤ j ∧ MultiScan.Bit b.bits findset j} =
        {k | ((if findset then b.word 0 else ~~~b.word 0) &&& ~~~bitmask idx).getLsbD k = true} := by
      ext k
      rw [Set.mem_ofPred_eq, Set.mem_ofPred_eq, BitVec.getLsbD_and, Bool.and_eq_true, bit_word,
        and_comm]
      refine and_congr_right fun hbit => ?_
      have hk : k < 64 := hbit.lt
      rw [BitVec.getLsbD_not, getLsbD_bitmask idx hk]
      simp [hk]
    rw [hset]
    exact MultiScan.lsb_firstOr _
  case isFalse => exact MultiScan.multiscanNext_firstOr b.bits idx findset

theorem find_firstOr (b : BitmapB B) (findset : Bool) :
    FirstOr {j | MultiScan.Bit b.bits findset j} (words B * 64) (b.find findset) := by
  rw [find]
  split
  case isTrue hB =>
    subst hB
    simp only [← bit_word]
    exact MultiScan.lsb_firstOr _
  case isFalse => exact MultiScan.multiscan_firstOr b.bits findset

/-- All scans find the extreme index whose bit equals `findset`, for any number of words. -/
theorem scans_agree {N : ℕ} (data : Fin N → Mword) (b : BitmapB B) (findset : Bool) :
    (∀ idx, FirstOr {j | idx ≤ j ∧ MultiScan.Bit data findset j} (N * 64)
        (MultiScan.multiscanNext data idx findset)) ∧
      MultiScan.multiscan data findset = MultiScan.multiscanNext data 0 findset ∧
      ((∃ j, MultiScan.Bit data findset j) →
        IsGreatest {j | MultiScan.Bit data findset j} (MultiScan.multiscanRev data findset)) ∧
      b.find findset = MultiScan.multiscanNext b.bits 0 findset ∧
      ∀ idx ≤ B, b.findnext idx findset = MultiScan.multiscanNext b.bits idx findset := by
  refine ⟨fun idx => MultiScan.multiscanNext_firstOr data idx findset,
    MultiScan.multiscan_eq_next data findset,
    fun ⟨_, hbit⟩ => MultiScan.multiscanRev_isGreatest hbit, ?_, fun idx _ => ?_⟩
  · have hnext := MultiScan.multiscanNext_firstOr b.bits 0 findset
    simp only [Nat.zero_le, true_and] at hnext
    exact (b.find_firstOr findset).unique hnext
  · exact (b.findnext_firstOr idx findset).unique (MultiScan.multiscanNext_firstOr b.bits idx findset)

/-! ### The set that a bitmap is -/

/-- The operations that change a bitmap. -/
inductive Op where
  | setB
  | clrB
  | flpB
  | set (idx : ℕ)
  | clr (idx : ℕ)
  | flp (idx : ℕ)

/-- The index of an operation is in the array. -/
def Op.Valid (B : ℕ) : Op → Prop
  | .set idx | .clr idx | .flp idx => valid B idx
  | _ => True

/-- The bitmap after an operation. -/
def Op.exec (b : BitmapB B) : Op → BitmapB B
  | .setB => b.setB
  | .clrB => b.clrB
  | .flpB => b.flpB
  | .set idx => b.set idx
  | .clr idx => b.clr idx
  | .flp idx => b.flp idx

/-- What the operations are on a set of indices below `top`. -/
def Op.apply (top : ℕ) (S : Finset ℕ) : Op → Finset ℕ
  | .setB => Finset.range top
  | .clrB => ∅
  | .flpB => Finset.range top \ S
  | .set idx => insert idx S
  | .clr idx => S.erase idx
  | .flp idx => symmDiff S {idx}

theorem toSet_exec (b : BitmapB B) {op : Op} (hop : op.Valid B) :
    (op.exec b).toSet = op.apply (words B * 64) b.toSet := by
  ext j
  rw [mem_toSet]
  cases op with
  | setB =>
    rw [Op.exec, Op.apply, Finset.mem_range]
    exact ⟨mem_valid, fun h => mem_setB b h⟩
  | clrB => simp [Op.exec, Op.apply, mem_clrB]
  | flpB =>
    rw [Op.exec, Op.apply, Finset.mem_sdiff, Finset.mem_range, mem_toSet]
    constructor
    · intro h
      have hv := mem_valid h
      rw [mem_flpB b hv] at h
      exact ⟨hv, by simpa using h⟩
    · rintro ⟨hv, h⟩
      rw [mem_flpB b hv]
      simpa using h
  | set idx => simp [Op.exec, Op.apply, mem_set b hop, mem_toSet]
  | clr idx => simp [Op.exec, Op.apply, mem_clr b hop, mem_toSet]
  | flp idx =>
    rw [Op.exec, mem_flp b hop, Op.apply, Finset.mem_symmDiff, Finset.mem_singleton, mem_toSet]
    by_cases hj : j = idx <;> cases b.mem j <;> simp [hj]

theorem toSet_run {ops : List Op} (b : BitmapB B) (hops : ∀ op ∈ ops, op.Valid B) :
    (ops.foldl Op.exec b).toSet = ops.foldl (Op.apply (words B * 64)) b.toSet := by
  induction ops generalizing b with
  | nil => rfl
  | cons op ops ih =>
    rw [List.forall_mem_cons] at hops
    rw [List.foldl_cons, List.foldl_cons, ih _ hops.2, toSet_exec b hops.1]

/-- What a bitmap tells about itself is true of `S`. -/
structure Shows (b : BitmapB B) (S : Finset ℕ) : Prop where
  test : ∀ j, valid B j → b.test j = decide (j ∈ S)
  empty : b.empty = true ↔ S = ∅
  full : b.full = true ↔ S = Finset.range (words B * 64)
  count : b.count = S.card

theorem shows_toSet (b : BitmapB B) : b.Shows b.toSet where
  test j hj := by
    rw [test_eq_mem b hj, Bool.eq_iff_iff, decide_eq_true_iff, mem_toSet]
  empty := by
    simp only [empty_iff, Finset.eq_empty_iff_forall_notMem, mem_toSet, Bool.not_eq_true]
  full := by
    rw [full_iff]
    constructor
    · intro h
      ext j
      rw [mem_toSet, Finset.mem_range]
      exact ⟨mem_valid, h j⟩
    · intro h j hj
      rw [← mem_toSet, h, Finset.mem_range]
      exact hj
  count := count_eq b

/-- Where a sequence starts. -/
inductive Start where
  | zero
  | filled

/-- A bitmap as it is constructed. -/
def Start.bitmap (B : ℕ) : Start → BitmapB B
  | .zero => ofWord 0#64
  | .filled => BitmapB.filled

/-- The set that a constructor is to make. -/
def Start.value (B : ℕ) : Start → Finset ℕ
  | .zero => ∅
  | .filled => Finset.range (words B * 64)

theorem toSet_zero : (ofWord 0#64 : BitmapB B).toSet = ∅ := by
  refine Finset.eq_empty_of_forall_notMem fun j hj => ?_
  rw [mem_toSet] at hj
  rw [mem_of_word (c := false) (fun i => ite_self _) (eq_zero_iff.mp rfl) (mem_valid hj)] at hj
  exact Bool.noConfusion hj

/-- Beyond the first word `filled` is empty. -/
theorem mem_filled {j : ℕ} (h : valid B j) : (filled : BitmapB B).mem j = decide (j < 64) := by
  rw [valid] at h
  rw [mem, word_eq _ (by omega), filled, ofWord]
  simp only
  by_cases hj : j < 64
  · rw [if_pos (by omega), eq_ones_iff.mp rfl _ (Nat.mod_lt _ (by decide))]
    simp [hj]
  · rw [if_neg (by omega), BitVec.getLsbD_zero]
    simp [hj]

/-- A bitmap is the set its operations say, but for a start from `filled` with several words. -/
theorem bitmap_is_set (start : Start) :
    (∀ ops : List Op, (∀ op ∈ ops, op.Valid B) →
      (ops.foldl Op.exec (start.bitmap B)).Shows
        (ops.foldl (Op.apply (words B * 64)) (start.value B))) ↔ start = .zero ∨ B ≤ 64 := by
  constructor
  · intro h
    by_contra hne
    obtain ⟨hstart, hB⟩ := not_or.mp hne
    have hfilled : start = .filled := by cases start <;> simp_all
    subst hfilled
    have h64 : valid B 64 := by rw [valid, words, divup]; omega
    have htest := (h [] (by simp)).test 64 h64
    rw [List.foldl_nil, List.foldl_nil, Start.bitmap, test_eq_mem _ h64, mem_filled h64] at htest
    simp only [lt_irrefl, decide_false, Start.value, Finset.mem_range] at htest
    exact of_decide_eq_false htest.symm h64
  · intro hcond ops hops
    have hstart : (start.bitmap B).toSet = start.value B := by
      cases start with
      | zero => exact toSet_zero
      | filled =>
        have hB : B ≤ 64 := hcond.resolve_left (by simp)
        have hN : words B = 1 := by rw [words, divup]; omega
        ext j
        rw [mem_toSet, Start.value, Finset.mem_range, Start.bitmap]
        constructor
        · exact mem_valid
        · intro hj
          rw [mem_filled hj, decide_eq_true_iff]
          omega
    rw [← hstart, ← toSet_run _ hops]
    exact shows_toSet _

/-- `Bitmap<128>::filled()` is not full. -/
theorem filled_not_full : ¬ ∀ (B : ℕ) (start : Start) (ops : List Op), (∀ op ∈ ops, op.Valid B) →
    (ops.foldl Op.exec (start.bitmap B)).Shows
      (ops.foldl (Op.apply (words B * 64)) (start.value B)) := by
  intro h
  have hfull := (h 128 .filled [] (by simp)).full.mpr rfl
  exact absurd hfull (by decide)

end BitmapB
end Libfibre
