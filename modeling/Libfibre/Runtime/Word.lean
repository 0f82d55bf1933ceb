import Mathlib.Algebra.Group.Nat.Defs

/-! Machine words: `size_t` arithmetic is modulo 2^64, `ssize_t` and `sword` are two's complement. -/

namespace Libfibre.Word

/-- A number as `size_t` has it. -/
def word (n : Nat) : Nat := n % 2 ^ 64

/-- `a - b` -/
def minus (a b : Nat) : Nat := word (2 ^ 64 + a - b)

/-- `ssize_t(n) > 0` -/
def positive (n : Nat) : Bool := 0 < n && n < 2 ^ 63

theorem word_of_lt {n : Nat} (h : n < 2 ^ 64) : word n = n := Nat.mod_eq_of_lt h

theorem word_succ (n : Nat) : word (word n + 1) = word (n + 1) := Nat.mod_add_mod n (2 ^ 64) 1

/-- A difference is seen as long as it is less than a word. -/
theorem minus_word {a b : Nat} (hle : b ≤ a) (hlt : a - b < 2 ^ 64) :
    minus (word a) (word b) = a - b := by
  simp only [minus, word]
  omega

theorem positive_iff {n : Nat} : positive n = true ↔ 0 < n ∧ n < 2 ^ 63 := by
  rw [positive, Bool.and_eq_true, decide_eq_true_eq, decide_eq_true_eq]

/-- What is not ahead is not seen as ahead. -/
theorem not_ahead {a b : Nat} (hle : a ≤ b) (hlt : b - a < 2 ^ 63) :
    positive (minus (word a) (word b)) = false := by
  refine Bool.eq_false_iff.mpr fun hpos => ?_
  rw [positive_iff] at hpos
  simp only [minus, word] at hpos
  omega

end Libfibre.Word
