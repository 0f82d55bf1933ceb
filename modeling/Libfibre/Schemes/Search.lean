import Mathlib.Order.Bounds.Basic
import Mathlib.Order.Monotone.Basic

/-! Searches for the least element of a set, with a fallback where the set is empty, and how a search
    by blocks composes: along a monotone map that sends an element to its block, the least element
    of the first block that is hit is the least element of all.

        blocks:      b0      b1      b2          first block hit: b1
        elements:  · · · · │· x · x│x · · ·      least element in it: the answer -/

namespace Libfibre.Search

variable {α β : Type} [LinearOrder α] [LinearOrder β] {S : Set α}

/-- `r` is the least element of `S`, or `d` if there is none. -/
def FirstOr (S : Set α) (d r : α) : Prop := IsLeast S r ∨ S = ∅ ∧ r = d

namespace FirstOr

theorem of_isLeast {d r : α} (h : IsLeast S r) : FirstOr S d r := .inl h

theorem of_empty {d : α} (h : S = ∅) : FirstOr S d d := .inr ⟨h, rfl⟩

/-- Short of the fallback the answer has been found. -/
theorem isLeast {d r : α} (h : FirstOr S d r) (hne : r ≠ d) : IsLeast S r :=
  h.resolve_right fun hr => hne hr.2

/-- The fallback, where it is no element, says that there is none. -/
theorem empty {d : α} (h : FirstOr S d d) (hd : d ∉ S) : S = ∅ :=
  (h.resolve_left fun hl => hd hl.1).1

theorem unique {d r r' : α} (h : FirstOr S d r) (h' : FirstOr S d r') : r = r' := by
  rcases h with hl | ⟨he, rfl⟩ <;> rcases h' with hl' | ⟨he', rfl⟩
  · exact hl.unique hl'
  · exact absurd hl.1 (he' ▸ Set.notMem_empty _)
  · exact absurd hl'.1 (he ▸ Set.notMem_empty _)
  · rfl

end FirstOr

/-- The least element of the first block is the least element. -/
theorem isLeast_of_fiber {f : α → β} (hf : Monotone f) {b : β} {a : α} (hb : IsLeast (f '' S) b)
    (ha : IsLeast {x ∈ S | f x = b} a) : IsLeast S a := by
  refine ⟨ha.1.1, fun x hx => ?_⟩
  rcases (hb.2 ⟨x, hx, rfl⟩).eq_or_lt with heq | hlt
  · exact ha.2 ⟨hx, heq.symm⟩
  · rw [← ha.1.2] at hlt
    exact (hf.reflect_lt hlt).le

end Libfibre.Search
