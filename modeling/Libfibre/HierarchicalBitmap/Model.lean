import Libfibre.Runtime.BitmapB

/-! `HierarchicalBitmap<W,B>` (`Bitmap.h`): arrays of `Bitmap<B>`, one for each level, where a bit on a
    level stands for a block of the level below it.

        level 2     ·1·                 one block
        level 1     1· · · ·1           bit i: block i of level 0 is not empty
        level 0     · ·1·│ · · ·│·11·   the bits themselves

    `bitmaps[l]` has as many blocks as `init` has made. A block beyond them and a failed `RASSERT0`
    leave a function without a value. -/

namespace Libfibre.HierarchicalBitmap

/-- `limit<size_t>()`. -/
def limit : ℕ := 2 ^ 64 - 1

/-- `B = 2^logB` and `W` under the static assertions, and what `init` is called with; rounded up to
    blocks the number of bits is still a `size_t`. -/
structure Shape where
  logB : ℕ
  W : ℕ
  bitcount : ℕ
  word : 6 ≤ logB
  width : logB ≤ W
  pos : 0 < bitcount
  within : bitcount ≤ 2 ^ W
  size : divup bitcount (2 ^ logB) * 2 ^ logB ≤ limit

namespace Shape

/-- How many bits a block has. -/
def B (s : Shape) : ℕ := 2 ^ s.logB

/-- `Levels`: enough for indices of `W` bits. -/
def Levels (s : Shape) : ℕ := divup s.W s.logB

/-- `bitcount` after `l` rounds of `init`. -/
def entries (s : Shape) : ℕ → ℕ
  | 0 => s.bitcount
  | l + 1 => divup (s.entries l) s.B

/-- The length of `bitmaps[l]`. -/
def blocks (s : Shape) (l : ℕ) : ℕ := s.entries (l + 1)

/-- How many blocks the lowest level has. -/
def maxBucketCount (s : Shape) : ℕ := divup s.bitcount s.B

end Shape

variable {s : Shape}

/-- `bitmaps`; only blocks that exist are ever looked at. -/
abbrev Bitmaps (s : Shape) := ℕ → ℕ → BitmapB s.B

/-- `bitmaps[l][i]`. -/
def block (h : Bitmaps s) (l i : ℕ) : Option (BitmapB s.B) :=
  if l < s.Levels ∧ i < s.blocks l then some (h l i) else none

/-- A change of `bitmaps[l][i]`. -/
def put (h : Bitmaps s) (l i : ℕ) (b : BitmapB s.B) : Bitmaps s :=
  Function.update h l (Function.update (h l) i b)

/-- `init` on zeroed memory. -/
def init (s : Shape) : Option (Bitmaps s) :=
  if s.entries s.Levels = 1 then some fun _ _ => BitmapB.ofWord 0#64 else none

/-- The loop of `set` with `n` levels to go. -/
def setFrom (h : Bitmaps s) : (n l idx : ℕ) → Option (Bitmaps s)
  | 0, _, idx => if idx = 0 then some h else none
  | n + 1, l, idx =>
    let r := idx % s.B
    let idx := idx / s.B
    (block h l idx).bind fun b =>
      if b.test r then some h else setFrom (put h l idx (b.set r)) n (l + 1) idx

/-- `set`, level by level up to the first where the bit is set already. -/
def set (h : Bitmaps s) (idx botlevel : ℕ) : Option (Bitmaps s) :=
  setFrom h (s.Levels - botlevel) botlevel idx

/-- The loop of `clr` with `n` levels to go. -/
def clrFrom (h : Bitmaps s) : (n l idx : ℕ) → Option (Bitmaps s)
  | 0, _, idx => if idx = 0 then some h else none
  | n + 1, l, idx =>
    let r := idx % s.B
    let idx := idx / s.B
    (block h l idx).bind fun b =>
      let b := b.clr r
      if !b.empty then some (put h l idx b) else clrFrom (put h l idx b) n (l + 1) idx

/-- `clr`, level by level up to the first block that is not empty then. -/
def clr (h : Bitmaps s) (idx botlevel : ℕ) : Option (Bitmaps s) :=
  clrFrom h (s.Levels - botlevel) botlevel idx

/-- `blockset`: a whole block of the lowest level, and its bit in the next. -/
def blockset (h : Bitmaps s) (idx : ℕ) : Option (Bitmaps s) :=
  (block h 0 (idx / s.B)).bind fun b => set (put h 0 (idx / s.B) b.setB) (idx / s.B) 1

/-- `blockclr`: a whole block of the lowest level, and its bit in the next. -/
def blockclr (h : Bitmaps s) (idx : ℕ) : Option (Bitmaps s) :=
  (block h 0 (idx / s.B)).bind fun b => clr (put h 0 (idx / s.B) b.clrB) (idx / s.B) 1

/-- `test`, in the lowest level. -/
def test (h : Bitmaps s) (idx : ℕ) : Option Bool :=
  (block h 0 (idx / s.B)).map fun b => b.test (idx % s.B)

/-- `empty`: the one block of the highest level is. -/
def empty (h : Bitmaps s) : Option Bool := (block h (s.Levels - 1) 0).map BitmapB.empty

/-- `blockfull`: the block that `idx` is in. -/
def blockfull (h : Bitmaps s) (idx : ℕ) : Option Bool :=
  (block h 0 (idx / s.B)).map BitmapB.full

/-- The loop of `find` from level `i` down. -/
def findFrom (h : Bitmaps s) : (i idx : ℕ) → Option ℕ
  | 0, idx => (block h 0 idx).map fun b =>
      let ldx := b.find true
      if ldx = s.B then limit else idx * s.B + ldx
  | i + 1, idx => (block h (i + 1) idx).bind fun b =>
      let ldx := b.find true
      if ldx = s.B then some limit else findFrom h i (idx * s.B + ldx)

/-- `find`: from the highest level down. -/
def find (h : Bitmaps s) : Option ℕ := findFrom h (s.Levels - 1) 0

/-- The loop of `findnext`, for at most as many rounds as given. -/
def findnextLoop (h : Bitmaps s) : (rounds l bidx ridx mbc : ℕ) → Option ℕ
  | 0, _, _, _, _ => none
  | rounds + 1, l, bidx, ridx, mbc => (block h l bidx).bind fun b =>
      let lidx := b.findnext ridx true
      if lidx = s.B then
        if bidx + 1 ≥ mbc then some limit
        else findnextLoop h rounds (l + 1) ((bidx + 1) / s.B) ((bidx + 1) % s.B) (mbc / s.B)
      else if l = 0 then some (bidx * s.B + lidx)
      else findnextLoop h rounds (l - 1) (bidx * s.B + lidx) 0 (mbc * s.B)

/-- A walk up and down again. -/
def findnext (h : Bitmaps s) (idx : ℕ) : Option ℕ :=
  findnextLoop h (2 * s.Levels) 0 (idx / s.B) (idx % s.B) s.maxBucketCount

/-! ### The shape -/

theorem divup_le_iff {n d k : ℕ} (hd : 0 < d) (hk : 0 < k) : divup n d ≤ k ↔ n ≤ k * d := by
  rw [divup, Nat.add_one_le_iff, Nat.div_lt_iff_lt_mul hd]
  have := Nat.mul_pos hk hd
  omega

theorem div_lt_divup {n d i : ℕ} (h : i < n) : i / d < divup n d :=
  Nat.lt_succ_of_le (Nat.div_le_div_right (by omega))

namespace Shape

theorem B_pos (s : Shape) : 0 < s.B := Nat.pow_pos (by decide)

theorem blocks_pos (s : Shape) (l : ℕ) : 0 < s.blocks l := Nat.succ_pos _

theorem blocks_zero (s : Shape) : s.blocks 0 = s.maxBucketCount := rfl

theorem blocks_succ (s : Shape) (l : ℕ) : s.blocks (l + 1) = divup (s.blocks l) s.B := rfl

theorem Levels_pos (s : Shape) : 0 < s.Levels := Nat.succ_pos _

/-- Each level takes `logB` off the width. -/
theorem entries_le (s : Shape) (l : ℕ) : s.entries l ≤ 2 ^ (s.W - l * s.logB) := by
  induction l with
  | zero => rw [Nat.zero_mul]; exact s.within
  | succ l ih =>
    rw [entries, divup_le_iff s.B_pos (Nat.pow_pos (by decide)), B, ← Nat.pow_add]
    refine ih.trans (Nat.pow_le_pow_right (by decide) ?_)
    rw [Nat.succ_mul]
    omega

/-- `RASSERT0(bitcount == 1)`. -/
theorem entries_Levels (s : Shape) : s.entries s.Levels = 1 := by
  have hcover : s.W ≤ s.Levels * s.logB :=
    (divup_le_iff (by have := s.word; omega) s.Levels_pos).mp le_rfl
  have hle := s.entries_le s.Levels
  rw [Nat.sub_eq_zero_of_le hcover, Nat.pow_zero] at hle
  exact le_antisymm hle (Nat.succ_pos _)

/-- The top level is a single block. -/
theorem blocks_top (s : Shape) : s.blocks (s.Levels - 1) = 1 := by
  rw [blocks, Nat.sub_add_cancel s.Levels_pos, entries_Levels]

/-- A block is `B` bits. -/
theorem words_B (s : Shape) : BitmapB.words s.B * 64 = s.B := by
  have hB : s.B = 64 * 2 ^ (s.logB - 6) := by
    rw [B, ← Nat.pow_add 2 6 (s.logB - 6), Nat.add_sub_cancel' s.word]
  have := Nat.pow_pos (n := s.logB - 6) (by decide : 0 < 2)
  rw [BitmapB.words, divup, hB]
  omega

/-- Bit `r` of block `i`. -/
theorem div_mod_B (s : Shape) (i : ℕ) {r : ℕ} (hr : r < s.B) :
    (i * s.B + r) / s.B = i ∧ (i * s.B + r) % s.B = r := by
  rw [Nat.mul_comm]
  refine ⟨?_, ?_⟩
  · rw [Nat.mul_add_div s.B_pos, Nat.div_eq_of_lt hr, Nat.add_zero]
  · rw [Nat.mul_add_mod, Nat.mod_eq_of_lt hr]

theorem valid_mod (s : Shape) (j : ℕ) : BitmapB.valid s.B (j % s.B) := by
  rw [BitmapB.valid, words_B]
  exact Nat.mod_lt _ s.B_pos

end Shape

theorem init_eq (s : Shape) : init s = some fun _ _ => BitmapB.ofWord 0#64 :=
  if_pos s.entries_Levels

theorem block_eq (h : Bitmaps s) {l i : ℕ} (hl : l < s.Levels) (hi : i < s.blocks l) :
    block h l i = some (h l i) := if_pos ⟨hl, hi⟩

/-! ### `findrange` -/

/-- What is left of a bucket shrinks. -/
theorem bucket_rest {B e : ℕ} (hB : 0 < B) (he : e % B ≠ 0) :
    (B - (e + 1) % B) % B < (B - e % B) % B := by
  have hlt := Nat.mod_lt e hB
  have hone : 1 % B = 1 := Nat.mod_eq_of_lt (by omega)
  rw [Nat.mod_eq_of_lt (by omega : B - e % B < B), Nat.add_mod_eq_ite, hone]
  split
  case isTrue h =>
    rw [show e % B + 1 - B = 0 by omega, Nat.sub_zero, Nat.mod_self]
    omega
  case isFalse h =>
    rw [Nat.mod_eq_of_lt (by omega)]
    omega

/-- The first loop, to the end of a bucket. -/
def scanBucket (h : Bitmaps s) (end_ : ℕ) : Option ℕ :=
  if end_ % s.B = 0 then some end_
  else (test h end_).bind fun t => if t then scanBucket h (end_ + 1) else some end_
termination_by (s.B - end_ % s.B) % s.B
decreasing_by exact bucket_rest s.B_pos ‹_›

/-- The second loop, over full buckets. -/
def skipBuckets (h : Bitmaps s) (end_ : ℕ) : Option ℕ :=
  if end_ / s.B < s.maxBucketCount then
    (blockfull h end_).bind fun f => if f then skipBuckets h (end_ + s.B) else some end_
  else some end_
termination_by s.maxBucketCount - end_ / s.B
decreasing_by
  rw [Nat.add_div_right _ s.B_pos]
  omega

/-- The third loop, into the last bucket. -/
def scanLast (h : Bitmaps s) (end_ : ℕ) : Option ℕ :=
  if end_ / s.B < s.maxBucketCount then
    (test h end_).bind fun t => if t then scanLast h (end_ + 1) else some end_
  else some end_
termination_by s.maxBucketCount * s.B - end_
decreasing_by
  have := (Nat.div_lt_iff_lt_mul s.B_pos).mp ‹end_ / s.B < s.maxBucketCount›
  omega

/-- `findrange`: `start` as it is left behind, and the result, a difference of two `size_t`. -/
def findrange (h : Bitmaps s) (start max : ℕ) : Option (ℕ × ℕ) :=
  (findnext h start).bind fun start =>
    if start = limit then some (start, 0)
    else
      (scanBucket h (start + 1)).bind fun end_ =>
      (skipBuckets h end_).bind fun end_ =>
      (scanLast h end_).bind fun end_ =>
        let end_ := if end_ > max then max else end_
        some (start, (end_ + 2 ^ 64 - start) % 2 ^ 64)

end Libfibre.HierarchicalBitmap
