import Libfibre.HierarchicalBitmap.Model

/-! `memsize` and `init` of `HierarchicalBitmap` (`Bitmap.h`): the caller asks for the size of the buffer,
    and `init` puts the arrays of the levels into it, one behind the other.

        p                                                      p + memsize
        │ bitmaps[0]: blocks 0 of them │ bitmaps[1] │ ··· │ bitmaps[Levels - 1]: 1 │

    Both go through the levels on their own; that they agree is what keeps `init` inside the buffer. -/

namespace Libfibre.HierarchicalBitmap

/-- `sizeof(Bitmap<B>)`, an array of words. -/
def sizeofBitmap (B : ℕ) : ℕ := 8 * BitmapB.words B

/-- The loop of `memsize` with `n` levels to go: `bitcount` and `mapcount` after it. -/
def memsizeLoop (B : ℕ) : (n bitcount mapcount : ℕ) → ℕ × ℕ
  | 0, bitcount, mapcount => (bitcount, mapcount)
  | n + 1, bitcount, mapcount =>
    let bitcount := divup bitcount B
    memsizeLoop B n bitcount (mapcount + bitcount)

def memsize (s : Shape) : Option ℕ :=
  let (bitcount, mapcount) := memsizeLoop s.B s.Levels s.bitcount 0
  if bitcount = 1 then some (sizeofBitmap s.B * mapcount) else none

/-- The loop of `init` with `n` levels to go, at `p`: `bitcount` after it, and for each `bitmaps[l]` its
    address and the number of blocks made there. -/
def placeLoop (B : ℕ) : (n bitcount p : ℕ) → ℕ × List (ℕ × ℕ)
  | 0, bitcount, _ => (bitcount, [])
  | n + 1, bitcount, p =>
    let bitcount := divup bitcount B
    let (last, arrays) := placeLoop B n bitcount (p + sizeofBitmap B * bitcount)
    (last, (p, bitcount) :: arrays)

/-- `init`. -/
def place (s : Shape) (p : ℕ) : Option (List (ℕ × ℕ)) :=
  let (bitcount, arrays) := placeLoop s.B s.Levels s.bitcount p
  if bitcount = 1 then some arrays else none

/-! ### Arrays one behind the other -/

/-- Byte `a` belongs to block `i` of array `l`; a block has `size` bytes. -/
def Holds (size : ℕ) (arrays : List (ℕ × ℕ)) (a : ℕ) (li : ℕ × ℕ) : Prop :=
  ∃ base count, arrays[li.1]? = some (base, count) ∧ li.2 < count ∧
    base + size * li.2 ≤ a ∧ a < base + size * (li.2 + 1)

/-- The arrays follow one another from `p` to `q`. -/
def Follow (size : ℕ) : (p : ℕ) → List (ℕ × ℕ) → (q : ℕ) → Prop
  | p, [], q => p = q
  | p, (base, count) :: arrays, q => base = p ∧ Follow size (p + size * count) arrays q

variable {s : Shape} {size p q a l i base count : ℕ} {arrays : List (ℕ × ℕ)}

theorem Follow.le (h : Follow size p arrays q) : p ≤ q := by
  induction arrays generalizing p with
  | nil => exact h.le
  | cons b arrays ih => exact (Nat.le_add_right _ _).trans (ih h.2)

theorem holds_zero : Holds size ((base, count) :: arrays) a (0, i) ↔
    i < count ∧ base + size * i ≤ a ∧ a < base + size * (i + 1) := by
  refine ⟨?_, fun h => ⟨base, count, rfl, h⟩⟩
  rintro ⟨base, count, ⟨⟩, h⟩
  exact h

theorem holds_succ {b : ℕ × ℕ} : Holds size (b :: arrays) a (l + 1, i) ↔ Holds size arrays a (l, i) := Iff.rfl

/-- A block lies between the ends. -/
theorem Follow.within (h : Follow size p arrays q) (ha : Holds size arrays a (l, i)) : p ≤ a ∧ a < q := by
  induction arrays generalizing p l with
  | nil =>
    obtain ⟨base, count, hget, -⟩ := ha
    cases hget
  | cons b arrays ih =>
    obtain ⟨base, count⟩ := b
    obtain ⟨rfl, hrest⟩ := h
    cases l with
    | zero =>
      obtain ⟨hi, hle, hlt⟩ := holds_zero.mp ha
      have hend : size * (i + 1) ≤ size * count := Nat.mul_le_mul_left size hi
      have hq := hrest.le
      exact ⟨(Nat.le_add_right _ _).trans hle, by omega⟩
    | succ l =>
      obtain ⟨hle, hlt⟩ := ih hrest (holds_succ.mp ha)
      exact ⟨(Nat.le_add_right _ _).trans hle, hlt⟩

/-- A byte between the ends belongs to one block. -/
theorem Follow.tiles (h : Follow size p arrays q) (hle : p ≤ a) (hlt : a < q) :
    ∃! li : ℕ × ℕ, Holds size arrays a li := by
  induction arrays generalizing p with
  | nil =>
    have hpq : p = q := h
    omega
  | cons b arrays ih =>
    obtain ⟨base, count⟩ := b
    obtain ⟨rfl, hrest⟩ := h
    by_cases hfirst : a < base + size * count
    · -- a block of the first array: the one that division gives
      have hin : (a - base) < count * size := by rw [Nat.mul_comm]; omega
      have hpos : 0 < size := Nat.pos_of_ne_zero fun h0 => by rw [h0, Nat.mul_zero] at hin; omega
      refine ⟨(0, (a - base) / size), holds_zero.mpr ⟨?_, ?_, ?_⟩, ?_⟩
      · exact (Nat.div_lt_iff_lt_mul hpos).mpr hin
      · have := Nat.mul_div_le (a - base) size
        omega
      · have := Nat.lt_mul_div_succ (a - base) hpos
        omega
      · rintro ⟨l, i⟩ hli
        cases l with
        | zero =>
          obtain ⟨-, hi, hi'⟩ := holds_zero.mp hli
          have hdiv : (a - base) / size = i := by
            refine Nat.div_eq_of_lt_le ?_ ?_
            · rw [Nat.mul_comm]
              omega
            · rw [Nat.mul_comm]
              omega
          rw [hdiv]
        | succ l =>
          have := (hrest.within (holds_succ.mp hli)).1
          omega
    · obtain ⟨⟨l, i⟩, hli, huniq⟩ := ih hrest (not_lt.mp hfirst)
      refine ⟨(l + 1, i), holds_succ.mpr hli, ?_⟩
      rintro ⟨l', i'⟩ hli'
      cases l' with
      | zero =>
        obtain ⟨hi, -, hlt'⟩ := holds_zero.mp hli'
        have hend : size * (i' + 1) ≤ size * count := Nat.mul_le_mul_left size hi
        omega
      | succ l' =>
        cases huniq (l', i') (holds_succ.mp hli')
        rfl

/-! ### The loops -/

/-- The loop of `memsize` counts the blocks of the levels. -/
theorem memsizeLoop_eq (s : Shape) (n l mapcount : ℕ) :
    memsizeLoop s.B n (s.entries l) mapcount =
      (s.entries (l + n), mapcount + ((List.range' l n).map s.blocks).sum) := by
  induction n generalizing l mapcount with
  | zero => rfl
  | succ n ih =>
    rw [memsizeLoop]
    refine (ih (l + 1) _).trans ?_
    rw [List.range'_succ, List.map_cons, List.sum_cons, Nat.add_right_comm l 1 n, Nat.add_assoc mapcount]
    rfl

/-- The loop of `init` puts as many bytes down. -/
theorem placeLoop_eq (s : Shape) (n l p : ℕ) :
    ∃ arrays, placeLoop s.B n (s.entries l) p = (s.entries (l + n), arrays) ∧
      arrays.map Prod.snd = (List.range' l n).map s.blocks ∧
      Follow (sizeofBitmap s.B) p arrays
        (p + sizeofBitmap s.B * ((List.range' l n).map s.blocks).sum) := by
  induction n generalizing l p with
  | zero => exact ⟨[], rfl, rfl, rfl⟩
  | succ n ih =>
    obtain ⟨arrays, hloop, hcounts, hfollow⟩ := ih (l + 1) (p + sizeofBitmap s.B * s.blocks l)
    refine ⟨(p, s.blocks l) :: arrays, ?_, ?_, rfl, ?_⟩
    · have hrest : placeLoop s.B n (divup (s.entries l) s.B)
          (p + sizeofBitmap s.B * divup (s.entries l) s.B) = (s.entries (l + 1 + n), arrays) := hloop
      rw [placeLoop, hrest, Nat.add_right_comm l 1 n]
      rfl
    · rw [List.map_cons, hcounts, List.range'_succ, List.map_cons]
    · rw [List.range'_succ, List.map_cons, List.sum_cons, Nat.mul_add, ← Nat.add_assoc]
      exact hfollow

/-- LAYOUT: for any number of bits, `memsize` is the number of bytes that `init` hands out: each of them
    belongs to one block of one level, a level has the blocks that its bits need, and no block sticks
    out of the buffer. -/
theorem layout (s : Shape) (p : ℕ) :
    ∃ m arrays, memsize s = some m ∧ place s p = some arrays ∧
      arrays.map Prod.snd = (List.range s.Levels).map s.blocks ∧
      (∀ a, p ≤ a → a < p + m → ∃! li : ℕ × ℕ, Holds (sizeofBitmap s.B) arrays a li) ∧
      ∀ a li, Holds (sizeofBitmap s.B) arrays a li → p ≤ a ∧ a < p + m := by
  obtain ⟨arrays, hplace, hcounts, hfollow⟩ := placeLoop_eq s s.Levels 0 p
  have hloop : placeLoop s.B s.Levels s.bitcount p = (s.entries (0 + s.Levels), arrays) := hplace
  have hmem : memsizeLoop s.B s.Levels s.bitcount 0 =
      (s.entries (0 + s.Levels), 0 + ((List.range' 0 s.Levels).map s.blocks).sum) :=
    memsizeLoop_eq s s.Levels 0 0
  rw [Nat.zero_add, s.entries_Levels] at hloop hmem
  rw [← List.range_eq_range'] at hcounts hfollow hmem
  rw [Nat.zero_add] at hmem
  refine ⟨_, arrays, ?_, ?_, hcounts, fun a => hfollow.tiles, fun a li => hfollow.within⟩
  · rw [memsize, hmem]
    rfl
  · rw [place, hloop]
    rfl

end Libfibre.HierarchicalBitmap
