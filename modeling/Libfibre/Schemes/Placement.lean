import Mathlib.Logic.Basic

/-! Things in places. `Has f p` says that `f` is found at `p`; in a sound state nothing is found at two
    places, and whatever is found at a place suits it. A step rearranges the contents of a part of the
    places, with what has been in that part or nowhere (`Placed.refill`). -/

namespace Libfibre.Placement

variable {F P : Type} {Has Has' Good Good' N : F → P → Prop} {D : P → Prop}

/-- Everything is at one place at most, and suits its place. -/
structure Placed (Has Good : F → P → Prop) : Prop where
  one : ∀ f p q, Has f p → Has f q → p = q
  good : ∀ f p, Has f p → Good f p

def Nowhere (Has : F → P → Prop) (f : F) : Prop := ∀ p, ¬ Has f p

/-- A part `D` of the places has new contents `N`, of things that were in that part or nowhere. -/
theorem Placed.refill (h : Placed Has Good)
    (hsplit : ∀ f p, Has' f p → N f p ∨ Has f p ∧ ¬ D p)
    (hfrom : ∀ f p q, N f p → Has f q → D q)
    (hone : ∀ f p q, N f p → N f q → p = q) (hnew : ∀ f p, N f p → Good' f p)
    (hkeep : ∀ f p, Has f p → ¬ D p → Good f p → Good' f p) : Placed Has' Good' where
  one f p q hp hq := by
    rcases hsplit f p hp with hp | ⟨hp, hpart⟩
    · rcases hsplit f q hq with hq | ⟨hq, hpart⟩
      · exact hone f p q hp hq
      · exact absurd (hfrom f p q hp hq) hpart
    · rcases hsplit f q hq with hq | ⟨hq, _⟩
      · exact absurd (hfrom f q p hq hp) hpart
      · exact h.one f p q hp hq
  good f p hp := by
    rcases hsplit f p hp with hp | ⟨hp, hpart⟩
    · exact hnew f p hp
    · exact hkeep f p hp hpart (h.good f p hp)

/-- Nothing comes to any place. -/
theorem Placed.mono (h : Placed Has Good) (hsub : ∀ f p, Has' f p → Has f p)
    (hkeep : ∀ f p, Has f p → Good f p → Good' f p) : Placed Has' Good' where
  one f p q hp hq := h.one f p q (hsub f p hp) (hsub f q hq)
  good f p hp := hkeep f p (hsub f p hp) (h.good f p (hsub f p hp))

/-- One thing comes to a place, from nowhere. -/
theorem Placed.enter {f : F} {b : P} (h : Placed Has Good) (hnowhere : Nowhere Has f)
    (hsplit : ∀ g p, Has' g p → (g = f ∧ p = b) ∨ Has g p) (hgood : Good f b) : Placed Has' Good :=
  h.refill (D := fun _ => False) (N := fun g p => g = f ∧ p = b)
    (fun g p hp => (hsplit g p hp).imp_right fun hp => ⟨hp, id⟩)
    (fun _ _ q hnew hq => hnowhere q (hnew.1 ▸ hq)) (fun _ _ _ hp hq => hp.2.trans hq.2.symm)
    (by rintro _ _ ⟨rfl, rfl⟩; exact hgood) fun _ _ _ _ hg => hg

/-- What was in the part and is not among its new contents is nowhere. -/
theorem nowhere_of_refill {f : F} (hsplit : ∀ p, Has' f p → N f p ∨ Has f p ∧ ¬ D p)
    (hfrom : ∀ p, Has f p → D p) (hnew : ∀ p, ¬ N f p) : Nowhere Has' f := by
  intro p hp
  rcases hsplit p hp with hp | ⟨hp, hpart⟩
  · exact hnew p hp
  · exact hpart (hfrom p hp)

theorem Nowhere.mono {f : F} (h : Nowhere Has f) (hsub : ∀ p, Has' f p → Has f p) :
    Nowhere Has' f := fun p hp => h p (hsub p hp)

end Libfibre.Placement
