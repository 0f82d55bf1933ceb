import Libfibre.Schemes.LinkPath
import Mathlib.Data.List.Basic

/-! `Ring` (`Container.h`): nodes with links both ways, closed to a ring. `combine_before`,
    `combine_after` and `take_out` rewire four links each, in an order that is right whoever
    coincides:

        p ◀──▶ x          p ◀─▶ first ··· last ◀─▶ x

    A null link that is followed and a failed assertion leave a function without a value. -/

namespace Libfibre.Ring

/-- `Next` and `Prev` of every node. -/
structure Heap (N : Type) where
  next : N → Option N
  prev : N → Option N

variable {N : Type} [DecidableEq N]

def Heap.setNext (h : Heap N) (n : N) (p : Option N) : Heap N :=
  { h with next := Function.update h.next n p }

def Heap.setPrev (h : Heap N) (n : N) (p : Option N) : Heap N :=
  { h with prev := Function.update h.prev n p }

/-- `Prev(n) && Next(n)`. -/
def linked (h : Heap N) (n : N) : Bool := (h.prev n).isSome && (h.next n).isSome

def takeOut (h : Heap N) (first last : N) : Option (Heap N) := do
  guard (linked h first)
  guard (linked h last)
  let h := h.setNext (← h.prev first) (h.next last)
  return h.setPrev (← h.next last) (h.prev first)

def combineBefore (h : Heap N) (next first last : N) : Option (Heap N) := do
  guard (linked h next)
  let h := h.setNext last next
  let h := h.setNext (← h.prev next) first
  let h := h.setPrev first (h.prev next)
  return h.setPrev next last

def combineAfter (h : Heap N) (prev first last : N) : Option (Heap N) := do
  guard (linked h prev)
  let h := h.setPrev first prev
  let h := h.setPrev (← h.next prev) last
  let h := h.setNext last (h.next prev)
  return h.setNext prev first

/-- `close(first, last)`. -/
def close (h : Heap N) (first last : N) : Heap N := (h.setPrev first last).setNext last first

def insertBefore (h : Heap N) (next first last : N) : Option (Heap N) := do
  guard (h.prev first = none)
  guard (h.next last = none)
  combineBefore h next first last

def insertAfter (h : Heap N) (prev first last : N) : Option (Heap N) := do
  guard (h.prev first = none)
  guard (h.next last = none)
  combineAfter h prev first last

/-- `remove(first, last)`; it returns `&last`. -/
def remove (h : Heap N) (first last : N) : Option (Heap N) := do
  let h ← takeOut h first last
  return (h.setNext last none).setPrev first none

/-! ### What the operations write -/

variable {h : Heap N} {p x f z : N}

/-- Both ways to combine come to the same four writes. -/
def splice (h : Heap N) (p x f z : N) : Heap N where
  next := Function.update (Function.update h.next z x) p f
  prev := Function.update (Function.update h.prev f p) x z

/-- Two writes leave the other links alone. -/
theorem update_both {g : N → Option N} {x y n : N} {v w : Option N} (hx : n ≠ x) (hy : n ≠ y) :
    Function.update (Function.update g x v) y w n = g n := by
  rw [Function.update_of_ne hy, Function.update_of_ne hx]

theorem combineBefore_eq (hp : h.prev x = some p) (hx : (h.next x).isSome) :
    combineBefore h x f z = some (splice h p x f z) := by
  simp [combineBefore, linked, hp, hx, Heap.setNext, Heap.setPrev, splice, guard]

theorem combineAfter_eq (hx : h.next p = some x) (hp : (h.prev p).isSome) :
    combineAfter h p f z = some (splice h p x f z) := by
  simp [combineAfter, linked, hx, hp, Heap.setNext, Heap.setPrev, splice, guard]

theorem insertBefore_eq (hp : h.prev x = some p) (hx : (h.next x).isSome) (hf : h.prev f = none)
    (hz : h.next z = none) : insertBefore h x f z = some (splice h p x f z) := by
  simp [insertBefore, hf, hz, combineBefore_eq hp hx, guard]

theorem insertAfter_eq (hx : h.next p = some x) (hp : (h.prev p).isSome) (hf : h.prev f = none)
    (hz : h.next z = none) : insertAfter h p f z = some (splice h p x f z) := by
  simp [insertAfter, hf, hz, combineAfter_eq hx hp, guard]

/-- `remove` closes the gap and nulls the outer links. -/
def unsplice (h : Heap N) (p x f z : N) : Heap N where
  next := Function.update (Function.update h.next p x) z none
  prev := Function.update (Function.update h.prev x p) f none

theorem remove_eq (hp : h.prev f = some p) (hx : h.next z = some x) (hf : (h.next f).isSome)
    (hz : (h.prev z).isSome) (hne : z ≠ p) : remove h f z = some (unsplice h p x f z) := by
  simp [remove, takeOut, linked, hp, hx, hf, hz, hne, Heap.setNext, Heap.setPrev, unsplice, guard]

end Libfibre.Ring
