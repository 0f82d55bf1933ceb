import Libfibre.FastBarrier.Sections
import Libfibre.Schemes.Threads

/-! Who returns from the barrier, and what. The call of each arrival returns after the arrivals of its group
    are complete, and in each group the notifier that pops itself, or else the last fibre popped, is
    marked to return `true`. -/

namespace Libfibre.FastBarrier
open Transition Tally Threads

variable {F : Type}

/-- Between its push and its return. -/
def Pc.inside : Pc F → Bool
  | .out | .pushing => false
  | _ => true

/-- A notifier that has popped itself. -/
def Pc.self : Pc F → Bool
  | .popping _ park | .resuming _ park _ | .unlocking park => !park
  | _ => false

/-- The fibre that a notifier is about to resume. -/
def Pc.next : Pc F → Option F
  | .racing _ g | .resuming _ _ g => some g
  | _ => none

/-- The group of the section has its mark. -/
def Pc.settled (target : ℕ) : Pc F → Bool
  | .popping _ park => !park
  | .resuming i park _ => !park || decide (i + 1 = target)
  | .unlocking _ => true
  | _ => false

/-- A fibre that has been told to go on. -/
def State.resumed (s : State F) (f : F) : Prop := s.resumedEarly f = true ∨ s.pc f = .ready

/-- INVARIANT: arrivals and fibres. -/
structure Arrived (s : State F) : Prop where
  inside : ∀ f, (s.pc f).inside = true →
    s.arrivals[s.arrival f]? = some f ∧ s.result (s.arrival f) = none
  arrived : ∀ i f, s.arrivals[i]? = some f → s.result i = none →
    (s.pc f).inside = true ∧ s.arrival f = i
  returned : ∀ i, s.result i ≠ none → i < s.popped
  resumed : ∀ f, s.resumed f →
    (s.pc f).inside = true ∧ s.arrival f < s.popped ∧ (s.pc f).self = false
  early : ∀ f, s.resumedEarly f = true → s.pc f ≠ .parked ∧ s.pc f ≠ .ready
  self : ∀ f, (s.pc f).self = true → s.arrival f < s.popped
  next : ∀ f g, (s.pc f).next = some g → g ≠ f ∧ (s.pc g).inside = true ∧
    s.arrival g + 1 = s.popped ∧ ¬ s.resumed g

/-- INVARIANT: `marks` are the arrivals whose calls return `true`, one for each group that has got
    that far. -/
structure Marked (target : ℕ) (marks : List ℕ) (s : State F) : Prop where
  free : s.lock = none → marks.length = s.groups.length
  holder : ∀ f, s.lock = some f →
    marks.length = s.groups.length + (if (s.pc f).settled target then 1 else 0)
  group : ∀ k i, marks[k]? = some i → i / target = k ∧ i < s.popped
  fresh : ∀ f, s.pc f = .pushing → s.resumeInfo f = none
  inside : ∀ f, (s.pc f).inside = true →
    ((s.resumeInfo f).isSome = true ∨ (s.pc f).self = true ↔ s.arrival f ∈ marks)
  result : ∀ i r, s.result i = some r → (r = true ↔ i ∈ marks)

theorem Pc.holds_of_next {p : Pc F} {g : F} (h : p.next = some g) : p.holds = true := by
  cases p <;> first | rfl | cases h

theorem Pc.holds_of_self {p : Pc F} (h : p.self = true) : p.holds = true := by
  cases p <;> first | rfl | cases h

theorem Pc.inside_of_holds {p : Pc F} (h : p.holds = true) : p.inside = true := by
  cases p <;> first | rfl | cases h

theorem Sections.unique {target : ℕ} {s : State F} (h : Sections target s) {f g : F}
    (hf : (s.pc f).holds = true) (hg : (s.pc g).holds = true) : f = g :=
  Option.some.inj (((h.lock f).mp hf).symm.trans ((h.lock g).mp hg))

/-! ### Arrivals -/

section Steps
variable [DecidableEq F] {target : ℕ} {s s' : State F} {f g : F} {q : Pc F}

omit [DecidableEq F] in
/-- Two fibres do not have the same arrival. -/
theorem Arrived.arrival_ne (h : Arrived s) (hf : (s.pc f).inside = true) (hg : (s.pc g).inside = true)
    (hne : g ≠ f) : s.arrival g ≠ s.arrival f := by
  intro he
  have hfa := (h.inside f hf).1
  have hga := (h.inside g hg).1
  rw [he, hfa] at hga
  exact hne (Option.some.inj hga).symm

theorem resumed_same (hearly : s'.resumedEarly = s.resumedEarly)
    (hpc : s'.pc = Function.update s.pc f q) (hready : q = .ready ↔ s.pc f = .ready) (g : F) :
    s'.resumed g ↔ s.resumed g := by
  rw [State.resumed, State.resumed, hearly, hpc]
  exact or_congr_right (at_iff hready g)

omit [DecidableEq F] in
/-- Nobody comes in, arrives or is resumed. -/
theorem Arrived.congr (h : Arrived s)
    (hrest : s'.arrivals = s.arrivals ∧ s'.arrival = s.arrival ∧ s'.result = s.result ∧
      s'.popped = s.popped) (hresumed : ∀ g, s'.resumed g ↔ s.resumed g)
    (hinside : ∀ g, (s'.pc g).inside = (s.pc g).inside) (hself : ∀ g, (s'.pc g).self = (s.pc g).self)
    (hnext : ∀ g k, (s'.pc g).next = some k → (s.pc g).next = some k)
    (hearly : ∀ g, s'.resumedEarly g = true → s'.pc g ≠ .parked ∧ s'.pc g ≠ .ready) : Arrived s' := by
  obtain ⟨harrivals, harrival, hresult, hpopped⟩ := hrest
  refine ⟨fun g hg => ?_, fun i g hi hr => ?_, fun i hi => ?_, fun g hg => ?_, hearly,
    fun g hg => ?_, fun g k hg => ?_⟩
  · rw [hinside] at hg
    rw [harrivals, harrival, hresult]
    exact h.inside g hg
  · rw [harrivals] at hi
    rw [hresult] at hr
    rw [hinside, harrival]
    exact h.arrived i g hi hr
  · rw [hresult] at hi
    rw [hpopped]
    exact h.returned i hi
  · rw [hresumed] at hg
    rw [hinside, harrival, hpopped, hself]
    exact h.resumed g hg
  · rw [hself] at hg
    rw [harrival, hpopped]
    exact h.self g hg
  · rw [hinside, harrival, hpopped, hresumed]
    exact h.next g k (hnext g k hg)

/-- A fibre goes on inside, and nobody is resumed. -/
theorem Arrived.goto (h : Arrived s) (hpc : s'.pc = Function.update s.pc f q)
    (hrest : s'.arrivals = s.arrivals ∧ s'.arrival = s.arrival ∧ s'.result = s.result ∧
      s'.popped = s.popped ∧ s'.resumedEarly = s.resumedEarly)
    (hin : (s.pc f).inside = true ∧ q.inside = true) (hself : q.self = (s.pc f).self)
    (hnext : ∀ g, q.next = some g → (s.pc f).next = some g) (hready : q ≠ .ready)
    (hparked : q = .parked → s.resumedEarly f = false) (hold : s.pc f ≠ .ready) : Arrived s' := by
  obtain ⟨harrivals, harrival, hresult, hpopped, hearly⟩ := hrest
  obtain ⟨hin, hin'⟩ := hin
  refine h.congr ⟨harrivals, harrival, hresult, hpopped⟩
    (resumed_same hearly hpc (iff_of_false hready hold)) ?_ ?_ (fun g k hg => ?_) fun g hg => ?_
  · rw [hpc]
    exact same_at (hin'.trans hin.symm)
  · rw [hpc]
    exact same_at hself
  · rw [hpc] at hg
    rcases eq_or_ne g f with rfl | hne
    · rw [Function.update_self] at hg
      exact hnext k hg
    · rwa [Function.update_of_ne hne] at hg
  · rw [hearly] at hg
    rw [hpc]
    rcases eq_or_ne g f with rfl | hne
    · rw [Function.update_self]
      refine ⟨fun hq => ?_, hready⟩
      rw [hparked hq] at hg
      cases hg
    · rw [Function.update_of_ne hne]
      exact h.early g hg

/-- A fibre comes to the barrier. -/
theorem Arrived.wait (h : Arrived s) (hpc : s.pc f = .out) (hpc' : s'.pc = Function.update s.pc f .pushing)
    (hrest : s'.arrivals = s.arrivals ∧ s'.arrival = s.arrival ∧ s'.result = s.result ∧
      s'.popped = s.popped ∧ s'.resumedEarly = s.resumedEarly) : Arrived s' := by
  obtain ⟨harrivals, harrival, hresult, hpopped, hearly⟩ := hrest
  have hnext : ∀ g, (s'.pc g).next = (s.pc g).next := by
    rw [hpc']
    exact same_at (by rw [hpc]; rfl)
  refine h.congr ⟨harrivals, harrival, hresult, hpopped⟩
    (resumed_same hearly hpc' (by rw [hpc]; simp)) ?_ ?_ (fun g k hg => (hnext g).symm.trans hg)
    fun g hg => ?_
  · rw [hpc']
    exact same_at (by rw [hpc]; rfl)
  · rw [hpc']
    exact same_at (by rw [hpc]; rfl)
  · rw [hearly] at hg
    have hne : g ≠ f := by
      rintro rfl
      have hin := (h.resumed g (.inl hg)).1
      rw [hpc] at hin
      cases hin
    rw [hpc', Function.update_of_ne hne]
    exact h.early g hg

/-- A fibre arrives. -/
theorem Arrived.push (h : Arrived s) (hpc : s.pc f = .pushing) (hlen : s.popped ≤ s.arrivals.length)
    (hpc' : s'.pc = Function.update s.pc f .counting)
    (hrest : s'.arrivals = s.arrivals ++ [f] ∧
      s'.arrival = Function.update s.arrival f s.arrivals.length ∧ s'.result = s.result ∧
      s'.popped = s.popped ∧ s'.resumedEarly = s.resumedEarly) : Arrived s' := by
  obtain ⟨harrivals, harrival, hresult, hpopped, hearly⟩ := hrest
  have hout : (s.pc f).inside = false := by rw [hpc]; rfl
  have hne : ∀ g, (s.pc g).inside = true → g ≠ f := by
    rintro g hg rfl
    rw [hout] at hg
    cases hg
  have hf : s'.pc f = .counting := by rw [hpc', Function.update_self]
  have hother : ∀ g, g ≠ f → s'.pc g = s.pc g ∧ s'.arrival g = s.arrival g := fun g hg => by
    rw [hpc', harrival, Function.update_of_ne hg, Function.update_of_ne hg]
    exact ⟨rfl, rfl⟩
  have hresumed : ∀ g, s'.resumed g ↔ s.resumed g := resumed_same hearly hpc' (by rw [hpc]; simp)
  refine ⟨fun g hg => ?_, fun i g hi hr => ?_, fun i hi => ?_, fun g hg => ?_, fun g hg => ?_,
    fun g hg => ?_, fun g k hg => ?_⟩
  · rw [harrivals, hresult]
    rcases eq_or_ne g f with rfl | hgf
    · rw [harrival, Function.update_self]
      refine ⟨List.getElem?_concat_length, ?_⟩
      by_contra hret
      exact absurd (h.returned _ hret) (by omega)
    · rw [(hother g hgf).1] at hg
      rw [(hother g hgf).2]
      obtain ⟨ha, hr⟩ := h.inside g hg
      exact ⟨List.getElem?_append_left (List.getElem?_eq_some_iff.mp ha).1 ▸ ha, hr⟩
  · rw [harrivals] at hi
    rw [hresult] at hr
    rcases Nat.lt_or_ge i s.arrivals.length with hlt | hge
    · rw [List.getElem?_append_left hlt] at hi
      obtain ⟨hin, ha⟩ := h.arrived i g hi hr
      rw [(hother g (hne g hin)).1, (hother g (hne g hin)).2]
      exact ⟨hin, ha⟩
    · rw [List.getElem?_append_right hge, List.getElem?_singleton] at hi
      split_ifs at hi with hzero
      obtain rfl := Option.some.inj hi
      rw [hf, harrival, Function.update_self]
      exact ⟨rfl, by omega⟩
  · rw [hresult] at hi
    rw [hpopped]
    exact h.returned i hi
  · rw [hresumed] at hg
    obtain ⟨hin, hlt, hself⟩ := h.resumed g hg
    rw [(hother g (hne g hin)).1, (hother g (hne g hin)).2, hpopped]
    exact ⟨hin, hlt, hself⟩
  · rw [hearly] at hg
    rw [(hother g (hne g (h.resumed g (.inl hg)).1)).1]
    exact h.early g hg
  · have hgf : g ≠ f := by
      rintro rfl
      rw [hf] at hg
      cases hg
    rw [(hother g hgf).1] at hg
    rw [(hother g hgf).2, hpopped]
    exact h.self g hg
  · have hgf : g ≠ f := by
      rintro rfl
      rw [hf] at hg
      cases hg
    rw [(hother g hgf).1] at hg
    obtain ⟨hkg, hin, ha, hk⟩ := h.next g k hg
    rw [(hother k (hne k hin)).1, (hother k (hne k hin)).2, hpopped, hresumed]
    exact ⟨hkg, hin, ha, hk⟩

omit [DecidableEq F] in
/-- The fibre that `pop` returns has its arrival there. -/
theorem Arrived.head (h : Arrived s) (hsections : Sections target s) {rest : List F}
    (hq : s.queue = g :: rest) :
    (s.pc g).inside = true ∧ s.arrival g = s.popped ∧ ¬ s.resumed g ∧ (s.pc g).self = false := by
  have hget : s.arrivals[s.popped]? = some g := by
    rw [← hsections.order, hq, List.getElem?_append_right (by rw [List.length_append]; rfl),
      List.length_append, State.popped, Nat.sub_self]
    rfl
  have hnone : s.result s.popped = none := by
    by_contra hret
    exact absurd (h.returned _ hret) (lt_irrefl _)
  obtain ⟨hin, ha⟩ := h.arrived _ g hget hnone
  refine ⟨hin, ha, fun hresumed => ?_, Bool.eq_false_iff.mpr fun hself => ?_⟩
  · exact absurd (h.resumed g hresumed).2.1 (by omega)
  · exact absurd (h.self g hself) (by omega)

/-- A fibre is popped, by itself or by another one. -/
theorem Arrived.pop (h : Arrived s) (hsections : Sections target s) {i : ℕ} {park : Bool}
    {rest : List F} (hpc : s.pc f = .popping i park) (hq : s.queue = g :: rest) :
    Arrived (State.goto { s with queue := rest, group := s.group ++ [g] } f
      (popped target f g i park)) := by
  obtain ⟨hin, ha, hnot, hself⟩ := h.head hsections hq
  have hholds : (s.pc f).holds = true := by rw [hpc]; rfl
  have hfin : (s.pc f).inside = true := Pc.inside_of_holds hholds
  set s' : State F := State.goto { s with queue := rest, group := s.group ++ [g] } f
    (popped target f g i park) with hs'
  have hpopped : s'.popped = s.popped + 1 := by
    rw [hs', State.popped, State.goto, List.length_append, List.length_singleton, State.popped,
      Nat.add_assoc]
  have hf : s'.pc f = popped target f g i park := Function.update_self ..
  have hother : ∀ k, k ≠ f → s'.pc k = s.pc k := fun k hk => Function.update_of_ne hk ..
  have hready : popped target f g i park ≠ .ready ∧ popped target f g i park ≠ .parked ∧
      (popped target f g i park).inside = true := by
    rw [FastBarrier.popped, FastBarrier.next]
    split_ifs <;> exact ⟨by simp, by simp, rfl⟩
  have hinside : ∀ k, (s'.pc k).inside = (s.pc k).inside := fun k => by
    rcases eq_or_ne k f with rfl | hne
    · rw [hf, hready.2.2, hfin]
    · rw [hother k hne]
  have hresumed : ∀ k, s'.resumed k ↔ s.resumed k := fun k => by
    rcases eq_or_ne k f with rfl | hne
    · rw [State.resumed, State.resumed, hf, hpc]
      simp [hready.1, hs', State.goto]
    · rw [State.resumed, State.resumed, hother k hne]
      rfl
  refine ⟨fun k hk => ?_, fun j k hj hr => ?_, fun j hj => ?_, fun k hk => ?_, fun k hk => ?_,
    fun k hk => ?_, fun k l hk => ?_⟩
  · rw [hinside] at hk
    exact h.inside k hk
  · rw [hinside]
    exact h.arrived j k hj hr
  · rw [hpopped]
    exact lt_of_lt_of_le (h.returned j hj) (Nat.le_succ _)
  · rw [hresumed] at hk
    obtain ⟨hkin, hlt, hkself⟩ := h.resumed k hk
    rw [hinside, hpopped]
    refine ⟨hkin, lt_of_lt_of_le hlt (Nat.le_succ _), ?_⟩
    rcases eq_or_ne k f with rfl | hne
    · rw [hf, FastBarrier.popped, FastBarrier.next]
      have hkg : g ≠ k := by
        rintro rfl
        exact hnot hk
      rw [hpc] at hkself
      rw [if_neg hkg]
      split_ifs
      · rfl
      · exact hkself
    · rw [hother k hne]
      exact hkself
  · rcases eq_or_ne k f with rfl | hne
    · rw [hf]
      exact ⟨hready.2.1, hready.1⟩
    · rw [hother k hne]
      exact h.early k hk
  · rw [hpopped]
    rcases eq_or_ne k f with rfl | hne
    · rcases eq_or_ne g k with rfl | hgk
      · exact lt_of_eq_of_lt ha (Nat.lt_succ_self _)
      · rw [hf, FastBarrier.popped, if_neg hgk] at hk
        refine lt_of_lt_of_le (h.self k ?_) (Nat.le_succ _)
        rw [hpc]
        split_ifs at hk
        · cases hk
        · exact hk
    · rw [hother k hne] at hk
      exact lt_of_lt_of_le (h.self k hk) (Nat.le_succ _)
  · rcases eq_or_ne k f with rfl | hne
    · rw [hf, FastBarrier.popped] at hk
      have hl : l = g ∧ g ≠ k := by
        split_ifs at hk with hgk hlast
        · rw [FastBarrier.next] at hk
          split_ifs at hk <;> cases hk
        · exact ⟨(Option.some.inj hk).symm, hgk⟩
        · exact ⟨(Option.some.inj hk).symm, hgk⟩
      obtain ⟨rfl, hgk⟩ := hl
      rw [hinside, hresumed, hpopped]
      exact ⟨hgk, hin, congrArg (· + 1) ha, hnot⟩
    · rw [hother k hne] at hk
      exact absurd (hsections.unique (Pc.holds_of_next hk) hholds) hne

omit [DecidableEq F] in
/-- A section is over. -/
theorem Arrived.leave (h : Arrived s) :
    Arrived { s with lock := none, groups := s.groups ++ [s.group], group := [] } := by
  have hpopped : State.popped { s with lock := none, groups := s.groups ++ [s.group], group := [] }
      = s.popped := by
    simp [State.popped]
  refine ⟨h.inside, h.arrived, ?_, ?_, h.early, ?_, ?_⟩
  · rw [hpopped]; exact h.returned
  · rw [hpopped]; exact h.resumed
  · rw [hpopped]; exact h.self
  · rw [hpopped]; exact h.next

/-- A call returns. -/
theorem Arrived.returns (h : Arrived s) {r : Bool} (hin : (s.pc f).inside = true)
    (hlt : s.arrival f < s.popped) (hnext : ∀ k, (s.pc k).next ≠ some f)
    (hpc : s'.pc = Function.update s.pc f .out)
    (hrest : s'.arrivals = s.arrivals ∧ s'.arrival = s.arrival ∧ s'.popped = s.popped)
    (hresult : s'.result = Function.update s.result (s.arrival f) (some r))
    (hearly : s'.resumedEarly f = false ∧ ∀ k, k ≠ f → s'.resumedEarly k = s.resumedEarly k) :
    Arrived s' := by
  obtain ⟨harrivals, harrival, hpopped⟩ := hrest
  have hf : s'.pc f = .out := by rw [hpc, Function.update_self]
  have hother : ∀ k, k ≠ f → s'.pc k = s.pc k := fun k hk => by
    rw [hpc, Function.update_of_ne hk]
  have hne : ∀ k, (s'.pc k).inside = true → k ≠ f := by
    rintro k hk rfl
    rw [hf] at hk
    cases hk
  have hresumed : ∀ k, s'.resumed k → k ≠ f ∧ s.resumed k := by
    intro k hk
    rcases eq_or_ne k f with rfl | hkf
    · rw [State.resumed, hf, hearly.1] at hk
      simp at hk
    · rw [State.resumed, hother k hkf, hearly.2 k hkf] at hk
      exact ⟨hkf, hk⟩
  refine ⟨fun k hk => ?_, fun j k hj hr => ?_, fun j hj => ?_, fun k hk => ?_, fun k hk => ?_,
    fun k hk => ?_, fun k l hk => ?_⟩
  · have hkf := hne k hk
    rw [hother k hkf] at hk
    rw [harrivals, harrival, hresult, Function.update_of_ne (h.arrival_ne hin hk hkf)]
    exact h.inside k hk
  · rw [harrivals] at hj
    rw [hresult] at hr
    have hja : j ≠ s.arrival f := by
      rintro rfl
      rw [Function.update_self] at hr
      cases hr
    rw [Function.update_of_ne hja] at hr
    obtain ⟨hkin, hka⟩ := h.arrived j k hj hr
    have hkf : k ≠ f := by
      rintro rfl
      exact hja hka.symm
    rw [hother k hkf, harrival]
    exact ⟨hkin, hka⟩
  · rw [hpopped]
    rw [hresult] at hj
    rcases eq_or_ne j (s.arrival f) with rfl | hja
    · exact hlt
    · rw [Function.update_of_ne hja] at hj
      exact h.returned j hj
  · obtain ⟨hkf, hk⟩ := hresumed k hk
    rw [hother k hkf, harrival, hpopped]
    exact h.resumed k hk
  · obtain ⟨hkf, -⟩ := hresumed k (.inl hk)
    rw [hearly.2 k hkf] at hk
    rw [hother k hkf]
    exact h.early k hk
  · have hkf := hne k (Pc.inside_of_holds (Pc.holds_of_self hk))
    rw [hother k hkf] at hk
    rw [harrival, hpopped]
    exact h.self k hk
  · have hkf := hne k (Pc.inside_of_holds (Pc.holds_of_next hk))
    rw [hother k hkf] at hk
    obtain ⟨hlk, hlin, hla, hl⟩ := h.next k l hk
    have hlf : l ≠ f := by
      rintro rfl
      exact hnext k hk
    rw [hother l hlf, harrival, hpopped]
    exact ⟨hlk, hlin, hla, fun hl' => hl (hresumed l hl').2⟩

/-- A popped fibre is told to go on. -/
theorem Arrived.resume (h : Arrived s) (hin : (s.pc g).inside = true) (hlt : s.arrival g < s.popped)
    (hself : (s.pc g).self = false) (hnot : ¬ s.resumed g) (hnext : ∀ k, (s.pc k).next ≠ some g)
    (hs : s.resume g = some s') : Arrived s' := by
  have hsame : s'.arrivals = s.arrivals ∧ s'.arrival = s.arrival ∧ s'.result = s.result ∧
      s'.popped = s.popped ∧ (∀ k, (s'.pc k).inside = (s.pc k).inside) ∧
      (∀ k, (s'.pc k).self = (s.pc k).self) ∧ (∀ k, (s'.pc k).next = (s.pc k).next) := by
    rcases resume_cases hs with ⟨hg, rfl⟩ | ⟨-, -, rfl⟩
    · have hpc : ∀ {α : Type} (c : Pc F → α), c .parked = c .ready → ∀ k,
          c ((s.goto g .ready).pc k) = c (s.pc k) := by
        intro α c hc k
        rcases eq_or_ne k g with rfl | hne
        · simp only [State.goto, Function.update_self, hg, hc]
        · simp only [State.goto, Function.update_of_ne hne]
      exact ⟨rfl, rfl, rfl, rfl, hpc Pc.inside rfl, hpc Pc.self rfl, hpc Pc.next rfl⟩
    · exact ⟨rfl, rfl, rfl, rfl, fun _ => rfl, fun _ => rfl, fun _ => rfl⟩
  have hresumed : ∀ k, k ≠ g → (s'.resumed k ↔ s.resumed k) := by
    intro k hk
    rcases resume_cases hs with ⟨-, rfl⟩ | ⟨-, -, rfl⟩
    · simp [State.resumed, State.goto, hk]
    · simp [State.resumed, hk]
  obtain ⟨harrivals, harrival, hresult, hpopped, hinside, hselfs, hnexts⟩ := hsame
  refine ⟨fun k hk => ?_, fun j k hj hr => ?_, fun j hj => ?_, fun k hk => ?_, fun k hk => ?_,
    fun k hk => ?_, fun k l hk => ?_⟩
  · rw [hinside] at hk
    rw [harrivals, harrival, hresult]
    exact h.inside k hk
  · rw [harrivals] at hj
    rw [hresult] at hr
    rw [hinside, harrival]
    exact h.arrived j k hj hr
  · rw [hresult] at hj
    rw [hpopped]
    exact h.returned j hj
  · rw [hinside, hselfs, harrival, hpopped]
    rcases eq_or_ne k g with rfl | hne
    · exact ⟨hin, hlt, hself⟩
    · exact h.resumed k ((hresumed k hne).mp hk)
  · rcases resume_cases hs with ⟨hg, rfl⟩ | ⟨hg, -, rfl⟩
    · rcases eq_or_ne k g with rfl | hne
      · exact absurd hg (h.early k hk).1
      · simp only [State.goto, Function.update_of_ne hne]
        exact h.early k hk
    · rcases eq_or_ne k g with rfl | hne
      · exact ⟨hg, fun hready => hnot (.inr hready)⟩
      · simp only [Function.update_of_ne hne] at hk
        exact h.early k hk
  · rw [hselfs] at hk
    rw [harrival, hpopped]
    exact h.self k hk
  · rw [hnexts] at hk
    have hlg : l ≠ g := by
      rintro rfl
      exact hnext k hk
    rw [hinside, harrival, hpopped, hresumed l hlg]
    exact h.next k l hk

/-! ### Marks -/

variable {marks : List ℕ}

/-- A fibre goes on inside, and no group gets its mark. -/
theorem Marked.goto (h : Marked target marks s) (hpc : s'.pc = Function.update s.pc f q)
    (hrest : s'.lock = s.lock ∧ s'.groups = s.groups ∧ s'.resumeInfo = s.resumeInfo ∧
      s'.arrival = s.arrival ∧ s'.result = s.result ∧ s.popped ≤ s'.popped)
    (hin : (s.pc f).inside = true ∧ q.inside = true) (hself : q.self = (s.pc f).self)
    (hsettled : s.lock = some f → q.settled target = (s.pc f).settled target) :
    Marked target marks s' := by
  obtain ⟨hlock, hgroups, hinfo, harrival, hresult, hpopped⟩ := hrest
  obtain ⟨hin, hin'⟩ := hin
  have hother : ∀ {α : Type} (c : Pc F → α), c q = c (s.pc f) → ∀ g, c (s'.pc g) = c (s.pc g) := by
    intro α c hc
    rw [hpc]
    exact same_at hc
  refine ⟨fun hn => ?_, fun g hg => ?_, fun k i hk => ?_, fun g hg => ?_, fun g hg => ?_,
    fun i r hi => ?_⟩
  · rw [hlock] at hn
    rw [hgroups]
    exact h.free hn
  · rw [hlock] at hg
    have hsame : (s'.pc g).settled target = (s.pc g).settled target := by
      rw [hpc]
      rcases eq_or_ne g f with rfl | hne
      · rw [Function.update_self, hsettled hg]
      · rw [Function.update_of_ne hne]
    rw [hgroups, hsame]
    exact h.holder g hg
  · exact ⟨(h.group k i hk).1, lt_of_lt_of_le (h.group k i hk).2 hpopped⟩
  · have hgf : g ≠ f := by
      rintro rfl
      rw [hpc, Function.update_self] at hg
      rw [hg] at hin'
      cases hin'
    rw [hpc, Function.update_of_ne hgf] at hg
    rw [hinfo]
    exact h.fresh g hg
  · rw [hother Pc.inside (hin'.trans hin.symm)] at hg
    rw [hother Pc.self hself, hinfo, harrival]
    exact h.inside g hg
  · rw [hresult] at hi
    exact h.result i r hi

/-- A section begins. -/
theorem Marked.enter (h : Marked target marks s) (hlock : s.lock = none) (hpc : s.pc f = .locking) :
    Marked target marks (State.goto { s with lock := some f } f (.popping 0 true)) := by
  have hfree := h.free hlock
  have hfirst : Marked target marks (s.goto f (.popping 0 true)) :=
    h.goto rfl ⟨rfl, rfl, rfl, rfl, rfl, le_rfl⟩ (by rw [hpc]; exact ⟨rfl, rfl⟩) (by rw [hpc]; rfl)
      fun _ => by rw [hpc]; rfl
  refine ⟨fun hn => ?_, fun g hg => ?_, hfirst.group, hfirst.fresh, hfirst.inside, hfirst.result⟩
  · cases hn
  · obtain rfl := Option.some.inj hg
    simp only [State.goto, Function.update_self, Pc.settled]
    exact hfree

omit [DecidableEq F] in
/-- A section is over, and its group has its mark. -/
theorem Marked.leave (h : Marked target marks s) {park : Bool} (hlock : s.lock = some f)
    (hpc : s.pc f = .unlocking park) :
    Marked target marks { s with lock := none, groups := s.groups ++ [s.group], group := [] } := by
  have hpopped : State.popped { s with lock := none, groups := s.groups ++ [s.group], group := [] }
      = s.popped := by
    simp [State.popped]
  have hlength := h.holder f hlock
  rw [hpc] at hlength
  refine ⟨fun _ => ?_, fun g hg => ?_, fun k i hk => ?_, h.fresh, h.inside, h.result⟩
  · rw [List.length_append]
    exact hlength
  · cases hg
  · rw [hpopped]
    exact h.group k i hk

omit [DecidableEq F] in
/-- The fibre that is popped last, or the notifier itself, becomes the one to return `true`. -/
theorem Marked.mark {r : State F} (h : Marked target marks s) (hlength : marks.length = s.groups.length)
    (hgroup : s.arrival g / target = s.groups.length) (hpopped : s.arrival g < r.popped)
    (hin : (s.pc g).inside = true) (harrived : Arrived s)
    (hlock : s.lock = some f ∧ r.lock = some f ∧ (r.pc f).settled target = true)
    (hrest : r.groups = s.groups ∧ r.arrival = s.arrival ∧ r.result = s.result ∧
      s.popped ≤ r.popped)
    (hpushing : ∀ k, r.pc k = .pushing ↔ s.pc k = .pushing)
    (hinside : ∀ k, (r.pc k).inside = (s.pc k).inside)
    (hinfo : ∀ k, k ≠ g → r.resumeInfo k = s.resumeInfo k ∧ (r.pc k).self = (s.pc k).self)
    (hmark : (r.resumeInfo g).isSome = true ∨ (r.pc g).self = true) :
    Marked target (marks ++ [s.arrival g]) r := by
  obtain ⟨hl, hl', hsettled⟩ := hlock
  obtain ⟨hgroups, harrival, hresult, hle⟩ := hrest
  refine ⟨fun hn => ?_, fun k hk => ?_, fun k i hk => ?_, fun k hk => ?_, fun k hk => ?_,
    fun i r hi => ?_⟩
  · rw [hl'] at hn
    cases hn
  · rw [hl'] at hk
    obtain rfl := Option.some.inj hk
    rw [hsettled, hgroups, List.length_append, hlength]
    rfl
  · rcases Nat.lt_or_ge k marks.length with hlt | hge
    · rw [List.getElem?_append_left hlt] at hk
      exact ⟨(h.group k i hk).1, lt_of_lt_of_le (h.group k i hk).2 hle⟩
    · rw [List.getElem?_append_right hge, List.getElem?_singleton] at hk
      split_ifs at hk with hzero
      obtain rfl := Option.some.inj hk
      exact ⟨by omega, hpopped⟩
  · have hk' := (hpushing k).mp hk
    have hkg : k ≠ g := by
      rintro rfl
      rw [hk'] at hin
      cases hin
    rw [(hinfo k hkg).1]
    exact h.fresh k hk'
  · rw [hinside] at hk
    rw [harrival, List.mem_append, List.mem_singleton]
    rcases eq_or_ne k g with rfl | hkg
    · exact iff_of_true hmark (.inr rfl)
    · rw [(hinfo k hkg).1, (hinfo k hkg).2, or_iff_left (harrived.arrival_ne hin hk hkg)]
      exact h.inside k hk
  · rw [hresult] at hi
    have hig : i ≠ s.arrival g := by
      rintro rfl
      rw [(harrived.inside g hin).2] at hi
      cases hi
    rw [List.mem_append, List.mem_singleton, or_iff_left hig]
    exact h.result i r hi

/-- A call returns what its arrival is marked for. -/
theorem Marked.returns (h : Marked target marks s) {r : Bool} (hlock : s.lock ≠ some f)
    (hr : r = true ↔ s.arrival f ∈ marks) (hpc : s'.pc = Function.update s.pc f .out)
    (hrest : s'.lock = s.lock ∧ s'.groups = s.groups ∧ s'.resumeInfo = s.resumeInfo ∧
      s'.arrival = s.arrival ∧ s'.popped = s.popped)
    (hresult : s'.result = Function.update s.result (s.arrival f) (some r)) :
    Marked target marks s' := by
  obtain ⟨hlock', hgroups, hinfo, harrival, hpopped⟩ := hrest
  refine ⟨fun hn => ?_, fun g hg => ?_, fun k i hk => ?_, fun g hg => ?_, fun g hg => ?_,
    fun i r' hi => ?_⟩
  · rw [hlock'] at hn
    rw [hgroups]
    exact h.free hn
  · rw [hlock'] at hg
    have hgf : g ≠ f := by
      rintro rfl
      exact hlock hg
    rw [hgroups, hpc, Function.update_of_ne hgf]
    exact h.holder g hg
  · rw [hpopped]
    exact h.group k i hk
  · rw [hpc] at hg
    rw [hinfo]
    exact h.fresh g (stayed hg nofun).2
  · rw [hpc] at hg ⊢
    rcases eq_or_ne g f with rfl | hgf
    · rw [Function.update_self] at hg
      cases hg
    · rw [Function.update_of_ne hgf] at hg ⊢
      rw [hinfo, harrival]
      exact h.inside g hg
  · rw [hresult] at hi
    rcases eq_or_ne i (s.arrival f) with rfl | hia
    · rw [Function.update_self] at hi
      obtain rfl := Option.some.inj hi
      exact hr
    · rw [Function.update_of_ne hia] at hi
      exact h.result i r' hi

/-- A fibre comes to the barrier. -/
theorem Marked.wait (h : Marked target marks s) (hlock : s.lock ≠ some f) :
    Marked target marks (State.goto { s with
      resumeInfo := Function.update s.resumeInfo f none } f .pushing) := by
  refine ⟨h.free, fun g hg => ?_, h.group, fun g hg => ?_, fun g hg => ?_, h.result⟩
  · have hgf : g ≠ f := by
      rintro rfl
      exact hlock hg
    simp only [State.goto, Function.update_of_ne hgf]
    exact h.holder g hg
  · simp only [State.goto] at hg ⊢
    rcases eq_or_ne g f with rfl | hgf
    · rw [Function.update_self]
    · rw [Function.update_of_ne hgf] at hg ⊢
      exact h.fresh g hg
  · simp only [State.goto] at hg ⊢
    rcases eq_or_ne g f with rfl | hgf
    · rw [Function.update_self] at hg
      cases hg
    · rw [Function.update_of_ne hgf] at hg ⊢
      rw [Function.update_of_ne hgf]
      exact h.inside g hg

/-- A fibre arrives; its group has no mark yet that could be its own. -/
theorem Marked.push (h : Marked target marks s) (hlock : s.lock ≠ some f) (hpc : s.pc f = .pushing)
    (hlen : s.popped ≤ s.arrivals.length) :
    Marked target marks (State.goto { s with
      queue := s.queue ++ [f]
      arrivals := s.arrivals ++ [f]
      arrival := Function.update s.arrival f s.arrivals.length } f .counting) := by
  refine ⟨h.free, fun g hg => ?_, h.group, fun g hg => ?_, fun g hg => ?_, h.result⟩
  · have hgf : g ≠ f := by
      rintro rfl
      exact hlock hg
    simp only [State.goto, Function.update_of_ne hgf]
    exact h.holder g hg
  · simp only [State.goto] at hg ⊢
    rcases eq_or_ne g f with rfl | hgf
    · exact h.fresh g hpc
    · rw [Function.update_of_ne hgf] at hg
      exact h.fresh g hg
  · simp only [State.goto] at hg ⊢
    rcases eq_or_ne g f with rfl | hgf
    · rw [Function.update_self, Function.update_self, h.fresh g hpc]
      refine iff_of_false (by simp [Pc.self]) fun hmem => ?_
      obtain ⟨k, hk⟩ := List.mem_iff_getElem?.mp hmem
      exact absurd (h.group k _ hk).2 (by omega)
    · rw [Function.update_of_ne hgf] at hg ⊢
      rw [Function.update_of_ne hgf]
      exact h.inside g hg

/-- A fibre is told to go on. -/
theorem Marked.resume (h : Marked target marks s) (hs : s.resume g = some s') :
    Marked target marks s' := by
  rcases resume_cases hs with ⟨hg, rfl⟩ | ⟨-, -, rfl⟩
  · exact h.goto (f := g) rfl ⟨rfl, rfl, rfl, rfl, rfl, le_rfl⟩ (by rw [hg]; exact ⟨rfl, rfl⟩)
      (by rw [hg]; rfl) fun _ => by rw [hg]; rfl
  · exact ⟨h.free, h.holder, h.group, h.fresh, h.inside, h.result⟩

/-! ### Every step -/

theorem resume_goto {t : State F} (hne : g ≠ f) (hs : s.resume g = some t) :
    (s.goto f q).resume g = some (t.goto f q) := by
  have hpc : (s.goto f q).pc g = s.pc g := Function.update_of_ne hne ..
  rw [State.resume, hpc]
  rcases resume_cases hs with ⟨hg, rfl⟩ | ⟨hg, hearly, rfl⟩
  · rw [if_pos hg]
    simp only [State.goto]
    rw [Function.update_comm hne]
  · rw [if_neg hg, if_neg (by rw [State.goto, hearly]; exact Bool.false_ne_true)]
    rfl

/-- INVARIANT: a fibre arrives again in a later group only. -/
def Distinct (target : ℕ) (s : State F) : Prop :=
  ∀ i j f, i < j → s.arrivals[i]? = some f → s.arrivals[j]? = some f → (i / target + 1) * target ≤ j

/-- INVARIANT: all of it. -/
structure Inv [Fintype F] (target : ℕ) (s : State F) : Prop where
  distinct : Distinct target s
  counted : Counted target s
  sections : Sections target s
  arrived : Arrived s
  marked : ∃ marks, Marked target marks s

omit [DecidableEq F] in
theorem Sections.lock_ne (h : Sections target s) (hpc : (s.pc f).holds = false) : s.lock ≠ some f := by
  intro hlock
  rw [(h.lock f).mpr hlock] at hpc
  cases hpc

/-- A fibre goes on inside. -/
theorem Inv.goto {r : State F} [Fintype F] (h : Inv target s) (hpc : r.pc = Function.update s.pc f q)
    (hrest : r.lock = s.lock ∧ r.groups = s.groups ∧ r.resumeInfo = s.resumeInfo ∧
      r.arrival = s.arrival ∧ r.result = s.result ∧ r.popped = s.popped)
    (harrivals : r.arrivals = s.arrivals) (hearly : r.resumedEarly = s.resumedEarly)
    (hin : (s.pc f).inside = true ∧ q.inside = true) (hself : q.self = (s.pc f).self)
    (hsettled : q.settled target = (s.pc f).settled target)
    (hnext : ∀ g, q.next = some g → (s.pc f).next = some g) (hready : q ≠ .ready)
    (hparked : q = .parked → s.resumedEarly f = false) (hold : s.pc f ≠ .ready) :
    Arrived r ∧ ∃ marks, Marked target marks r := by
  obtain ⟨marks, hmarks⟩ := h.marked
  obtain ⟨hlock, hgroups, hinfo, harrival, hresult, hpopped⟩ := hrest
  exact ⟨h.arrived.goto hpc ⟨harrivals, harrival, hresult, hpopped, hearly⟩ hin hself hnext hready
    hparked hold, marks, hmarks.goto hpc
      ⟨hlock, hgroups, hinfo, harrival, hresult, hpopped.ge⟩ hin hself fun _ => hsettled⟩

/-- A fibre that has been told to go on returns. -/
theorem Inv.returns [Fintype F] (h : Inv target s) (hresumed : s.resumed f)
    (hpc : s'.pc = Function.update s.pc f .out) (hholds : (s.pc f).holds = false)
    (hrest : s'.lock = s.lock ∧ s'.groups = s.groups ∧ s'.resumeInfo = s.resumeInfo ∧
      s'.arrival = s.arrival ∧ s'.popped = s.popped)
    (harrivals : s'.arrivals = s.arrivals)
    (hresult : s'.result = Function.update s.result (s.arrival f) (some (s.resumeInfo f).isSome))
    (hearly : s'.resumedEarly f = false ∧ ∀ k, k ≠ f → s'.resumedEarly k = s.resumedEarly k) :
    Arrived s' ∧ ∃ marks, Marked target marks s' := by
  obtain ⟨marks, hmarks⟩ := h.marked
  obtain ⟨hin, hlt, hself⟩ := h.arrived.resumed f hresumed
  have hr : (s.resumeInfo f).isSome = true ↔ s.arrival f ∈ marks := by
    rw [← hmarks.inside f hin, hself]
    simp
  exact ⟨h.arrived.returns hin hlt (fun k hk => (h.arrived.next k f hk).2.2.2 hresumed) hpc
    ⟨harrivals, hrest.2.2.2.1, hrest.2.2.2.2⟩ hresult hearly, marks,
    hmarks.returns (h.sections.lock_ne hholds) hr hpc hrest hresult⟩

/-- The notifier pops a fibre. -/
theorem Inv.pop [Fintype F] (h : Inv target s) {i : ℕ} {park : Bool} {rest : List F}
    (hpc : s.pc f = .popping i park) (hq : s.queue = g :: rest) :
    ∃ marks, Marked target marks (State.goto { s with queue := rest, group := s.group ++ [g] } f
      (popped target f g i park)) := by
  obtain ⟨marks, hmarks⟩ := h.marked
  obtain ⟨hin, ha, hnot, hself⟩ := h.arrived.head h.sections hq
  have hholds : (s.pc f).holds = true := by rw [hpc]; rfl
  have hmine := (h.sections.lock f).mp hholds
  have hfin : (s.pc f).inside = true := Pc.inside_of_holds hholds
  obtain ⟨hgroup, hloop⟩ := h.sections.of_holds hholds
  have hi : i < target := by rwa [hpc] at hloop
  rw [hpc] at hgroup
  have hpopped : s.popped = s.groups.length * target + i := by
    rw [h.sections.popped_eq, hgroup]
    rfl
  have hle : s.popped + 1 = State.popped { s with queue := rest, group := s.group ++ [g] } := by
    rw [State.popped, State.popped, List.length_append, List.length_singleton, Nat.add_assoc]
  rcases eq_or_ne g f with rfl | hgf
  · have hpark : park = true := by
      rw [hpc] at hself
      cases park with
      | true => rfl
      | false => cases hself
    have hlength := hmarks.holder g hmine
    rw [hpc, hpark] at hlength
    have hnew : popped target g g i park = FastBarrier.next target i false := by
      rw [FastBarrier.popped, if_pos rfl]
    have hprops : (FastBarrier.next target i false : Pc F).settled target = true ∧
        (FastBarrier.next target i false : Pc F).self = true ∧
        FastBarrier.next target i false ≠ (.pushing : Pc F) ∧
        (FastBarrier.next target i false : Pc F).inside = true := by
      rw [FastBarrier.next]
      split_ifs <;> exact ⟨rfl, rfl, by simp, rfl⟩
    rw [hnew]
    refine ⟨_, hmarks.mark (r := State.goto { s with queue := rest, group := s.group ++ [g] } g
      (FastBarrier.next target i false)) (f := g) (g := g) hlength ?_ ?_ hin h.arrived
      ⟨hmine, hmine, ?_⟩ ⟨rfl, rfl, rfl, ?_⟩ (fun k => ?_) (fun k => ?_) (fun k hk => ⟨rfl, ?_⟩)
      (.inr ?_)⟩
    · rw [ha, hpopped, Nat.mul_comm, Nat.mul_add_div (by omega), Nat.div_eq_of_lt hi, Nat.add_zero]
    · rw [ha]
      exact lt_of_lt_of_eq (Nat.lt_succ_self _) hle
    · simp only [State.goto, Function.update_self]
      exact hprops.1
    · exact (Nat.le_succ _).trans_eq hle
    · exact at_iff (iff_of_false hprops.2.2.1 (by simp [hpc])) k
    · exact same_at (f := Pc.inside) (hprops.2.2.2.trans hin.symm) k
    · simp only [State.goto, Function.update_of_ne hk]
    · simp only [State.goto, Function.update_self]
      exact hprops.2.1
  · refine ⟨marks, hmarks.goto (f := f) rfl ⟨rfl, rfl, rfl, rfl, rfl, (Nat.le_succ _).trans_eq hle⟩
      ⟨hfin, ?_⟩ ?_ fun _ => ?_⟩
    · rw [FastBarrier.popped, if_neg hgf]
      split_ifs <;> rfl
    · rw [FastBarrier.popped, if_neg hgf, hpc]
      split_ifs with hlast
      · rw [hlast.2]; rfl
      · rfl
    · rw [FastBarrier.popped, if_neg hgf, hpc]
      split_ifs with hlast
      · rw [hlast.2]; rfl
      · simp only [Pc.settled]
        cases park with
        | false => rfl
        | true =>
          have hne : i + 1 ≠ target := by
            intro he
            exact hlast ⟨by omega, rfl⟩
          simp [hne]

/-- The last fibre of a group is told that it is the one. -/
theorem Inv.raceResume [Fintype F] (h : Inv target s) (htarget : 0 < target) {i : ℕ}
    (hpc : s.pc f = .racing i g) :
    ∃ marks, Marked target marks (State.goto { s with
      resumeInfo := if s.resumeInfo g = none then Function.update s.resumeInfo g (some f)
        else s.resumeInfo } f (.resuming i true g)) := by
  obtain ⟨marks, hmarks⟩ := h.marked
  have hholds : (s.pc f).holds = true := by rw [hpc]; rfl
  have hmine := (h.sections.lock f).mp hholds
  obtain ⟨hgf, hin, ha, -⟩ := h.arrived.next f g (by rw [hpc]; rfl)
  obtain ⟨hgroup, hloop⟩ := h.sections.of_holds hholds
  have hi : i + 1 = target := by rwa [hpc] at hloop
  rw [hpc] at hgroup
  have hpopped : s.popped = s.groups.length * target + (i + 1) := by
    rw [h.sections.popped_eq, hgroup]
    rfl
  have hlength : marks.length = s.groups.length := by
    have hlen := hmarks.holder f hmine
    rwa [hpc] at hlen
  have hdiv : s.arrival g / target = s.groups.length := by
    have hag : s.arrival g = target * s.groups.length + i := by rw [Nat.mul_comm]; omega
    rw [hag, Nat.mul_add_div htarget, Nat.div_eq_of_lt (by omega), Nat.add_zero]
  have hunmarked : s.arrival g ∉ marks := by
    intro hmem
    obtain ⟨k, hk⟩ := List.mem_iff_getElem?.mp hmem
    have hkdiv := (hmarks.group k _ hk).1
    have hklt := (List.getElem?_eq_some_iff.mp hk).1
    omega
  have hnone : s.resumeInfo g = none := by
    rw [← Option.not_isSome_iff_eq_none]
    exact fun hsome => hunmarked ((hmarks.inside g hin).mp (.inl hsome))
  rw [if_pos hnone]
  refine ⟨_, hmarks.mark (r := State.goto { s with
    resumeInfo := Function.update s.resumeInfo g (some f) } f (.resuming i true g)) (f := f) (g := g)
    hlength hdiv ?_ hin h.arrived ⟨hmine, hmine, ?_⟩ ⟨rfl, rfl, rfl, le_rfl⟩ (fun k => ?_)
    (fun k => ?_) (fun k hk => ⟨?_, ?_⟩) (.inl ?_)⟩
  · exact lt_of_lt_of_eq (Nat.lt_succ_self _) ha
  · simp only [State.goto, Function.update_self, Pc.settled, hi]
    simp
  · exact at_iff (iff_of_false (by simp) (by simp [hpc])) k
  · exact same_at (f := Pc.inside) (by rw [hpc]; rfl) k
  · simp only [State.goto, Function.update_of_ne hk]
  · exact same_at (f := Pc.self) (by rw [hpc]; rfl) k
  · simp only [State.goto, Function.update_self]
    rfl

omit [DecidableEq F] in
theorem next_same {i : ℕ} (hi : i < target) (park : Bool) (g : F) :
    (FastBarrier.next target i park : Pc F).self = (Pc.resuming i park g).self ∧
      (FastBarrier.next target i park : Pc F).next = none ∧
      (FastBarrier.next target i park : Pc F).settled target
        = (Pc.resuming i park g).settled target ∧
      FastBarrier.next target i park ≠ (.ready : Pc F) ∧
      FastBarrier.next target i park ≠ (.parked : Pc F) := by
  rw [FastBarrier.next]
  split_ifs with hlast
  · have hne : i + 1 ≠ target := by omega
    exact ⟨rfl, rfl, by simp [Pc.settled, hne], by simp, by simp⟩
  · have he : i + 1 = target := by omega
    exact ⟨rfl, rfl, by simp [Pc.settled, he], by simp, by simp⟩

/-- STEP: arrivals and marks. -/
theorem Inv.rounds [Fintype F] {a : Action F} (h : Inv target s) (htarget : 0 < target)
    (hs : step target s a = some s') : Arrived s' ∧ ∃ marks, Marked target marks s' := by
  have hlen : s.popped ≤ s.arrivals.length := by
    have hall := h.sections.popped_add
    omega
  obtain ⟨marks, hmarks⟩ := h.marked
  cases a with
  | wait f =>
    obtain ⟨hpc, rfl⟩ := step_cases hs
    exact ⟨h.arrived.wait hpc rfl ⟨rfl, rfl, rfl, rfl, rfl⟩, marks,
      hmarks.wait (h.sections.lock_ne (by rw [hpc]; rfl))⟩
  | push f =>
    obtain ⟨hpc, rfl⟩ := step_cases hs
    exact ⟨h.arrived.push hpc hlen rfl ⟨rfl, rfl, rfl, rfl, rfl⟩, marks,
      hmarks.push (h.sections.lock_ne (by rw [hpc]; rfl)) hpc hlen⟩
  | count f =>
    obtain ⟨hpc, rfl⟩ := step_cases hs
    split_ifs
    · exact h.goto (f := f) rfl ⟨rfl, rfl, rfl, rfl, rfl, rfl⟩ rfl rfl (by rw [hpc]; exact ⟨rfl, rfl⟩)
        (by rw [hpc]; rfl) (by rw [hpc]; rfl) (by simp [Pc.next]) (by simp) (by simp) (by simp [hpc])
    · exact h.goto (f := f) rfl ⟨rfl, rfl, rfl, rfl, rfl, rfl⟩ rfl rfl (by rw [hpc]; exact ⟨rfl, rfl⟩)
        (by rw [hpc]; rfl) (by rw [hpc]; rfl) (by simp [Pc.next]) (by simp) (by simp) (by simp [hpc])
  | reduce f =>
    obtain ⟨hpc, rfl⟩ := step_cases hs
    exact h.goto (f := f) rfl ⟨rfl, rfl, rfl, rfl, rfl, rfl⟩ rfl rfl (by rw [hpc]; exact ⟨rfl, rfl⟩)
      (by rw [hpc]; rfl) (by rw [hpc]; rfl) (by simp [Pc.next]) (by simp) (by simp) (by simp [hpc])
  | lock f =>
    obtain ⟨⟨hpc, hlock⟩, rfl⟩ := step_cases hs
    refine ⟨h.arrived.goto (f := f) rfl ⟨rfl, rfl, rfl, rfl, rfl⟩ (by rw [hpc]; exact ⟨rfl, rfl⟩)
      (by rw [hpc]; rfl) (by simp [Pc.next]) (by simp) (by simp) (by simp [hpc]), marks,
      hmarks.enter hlock hpc⟩
  | pop f seen =>
    obtain ⟨i, park, hpc, rfl⟩ := step_cases hs
    split_ifs
    · cases hq : s.queue with
      | nil => rw [pop_nil hq]; exact ⟨h.arrived, marks, hmarks⟩
      | cons g rest =>
        rw [pop_cons hq]
        exact ⟨h.arrived.pop h.sections hpc hq, h.pop hpc hq⟩
    · exact ⟨h.arrived, marks, hmarks⟩
  | raceResume f =>
    obtain ⟨i, g, hpc, rfl⟩ := step_cases hs
    refine ⟨h.arrived.goto (f := f) rfl ⟨rfl, rfl, rfl, rfl, rfl⟩ (by rw [hpc]; exact ⟨rfl, rfl⟩)
      (by rw [hpc]; rfl) (fun k hk => by rw [hpc]; exact hk) (by simp) (by simp) (by simp [hpc]),
      h.raceResume htarget hpc⟩
  | resume f =>
    obtain ⟨i, park, g, hpc, t, ht, rfl⟩ := step_cases hs
    obtain ⟨hgf, hin, ha, hnot⟩ := h.arrived.next f g (by rw [hpc]; rfl)
    have hholds : (s.pc f).holds = true := by rw [hpc]; rfl
    have hi : i < target := by
      have hloop := (h.sections.of_holds hholds).2
      rwa [hpc] at hloop
    obtain ⟨hself, hnext, hsettled, hready⟩ := next_same (F := F) hi park g
    obtain ⟨harrived, marks', hmarks'⟩ := h.goto (f := f) (r := s.goto f _) rfl
      ⟨rfl, rfl, rfl, rfl, rfl, rfl⟩ rfl rfl
      ⟨Pc.inside_of_holds hholds, Pc.inside_of_holds (next_holds i park)⟩ (by rw [hpc, hself])
      (by rw [hpc, hsettled]) (by simp [hnext]) hready.1 (fun hp => absurd hp hready.2)
      (by simp [hpc])
    have hcomm := resume_goto (q := FastBarrier.next target i park) hgf ht
    have hg : (s.goto f (FastBarrier.next target i park)).pc g = s.pc g :=
      Function.update_of_ne hgf ..
    refine ⟨harrived.resume (g := g) (by rw [hg]; exact hin) (lt_of_lt_of_eq (Nat.lt_succ_self _) ha)
      ?_ ?_ (fun k hk => ?_) hcomm, marks', hmarks'.resume hcomm⟩
    · rw [hg, Bool.eq_false_iff]
      exact fun hself => hgf (h.sections.unique (Pc.holds_of_self hself) hholds)
    · rw [State.resumed, hg]
      exact hnot
    · rcases eq_or_ne k f with rfl | hne
      · simp only [State.goto, Function.update_self, hnext] at hk
        cases hk
      · simp only [State.goto, Function.update_of_ne hne] at hk
        exact hne (h.sections.unique (Pc.holds_of_next hk) hholds)
  | unlock f =>
    obtain ⟨park, hpc, rfl⟩ := step_cases hs
    have hholds : (s.pc f).holds = true := by rw [hpc]; rfl
    have hin : (s.pc f).inside = true := Pc.inside_of_holds hholds
    have hleft := hmarks.leave ((h.sections.lock f).mp hholds) hpc
    split_ifs with hpark
    · subst hpark
      exact ⟨h.arrived.leave.goto (f := f) rfl ⟨rfl, rfl, rfl, rfl, rfl⟩ ⟨hin, rfl⟩
        (by rw [hpc]; rfl) (by simp [Pc.next]) (by simp) (by simp) (by simp [hpc]), marks,
        hleft.goto (f := f) rfl ⟨rfl, rfl, rfl, rfl, rfl, le_rfl⟩ ⟨hin, rfl⟩ (by rw [hpc]; rfl)
          (by simp)⟩
    · have hself : (s.pc f).self = true := by
        rw [hpc]
        simpa [Pc.self] using hpark
      have hearly : s.resumedEarly f = false := by
        rw [Bool.eq_false_iff]
        intro he
        have hnself := (h.arrived.resumed f (.inl he)).2.2
        rw [hself] at hnself
        cases hnself
      refine ⟨h.arrived.leave.returns (f := f) (r := true) hin ?_ (fun k hk => ?_) rfl
        ⟨rfl, rfl, rfl⟩ rfl ⟨hearly, fun _ _ => rfl⟩, marks, hleft.returns (f := f) (r := true)
          (by simp) ?_ rfl ⟨rfl, rfl, rfl, rfl, rfl⟩ rfl⟩
      · have hlt := h.arrived.leave.self f hself
        exact hlt
      · obtain rfl := h.sections.unique (Pc.holds_of_next hk) hholds
        rw [hpc] at hk
        cases hk
      · exact iff_of_true rfl ((hmarks.inside f hin).mp (.inr hself))
  | suspend f =>
    obtain ⟨hpc, rfl⟩ := step_cases hs
    split_ifs with hearly
    · exact h.returns (.inl hearly) rfl (by rw [hpc]; rfl) ⟨rfl, rfl, rfl, rfl, rfl⟩ rfl rfl
        ⟨Function.update_self .., fun k hk => Function.update_of_ne hk ..⟩
    · exact h.goto (f := f) rfl ⟨rfl, rfl, rfl, rfl, rfl, rfl⟩ rfl rfl (by rw [hpc]; exact ⟨rfl, rfl⟩)
        (by rw [hpc]; rfl) (by rw [hpc]; rfl) (by simp [Pc.next]) (by simp)
        (fun _ => Bool.eq_false_iff.mpr hearly) (by simp [hpc])
  | run f =>
    obtain ⟨hpc, rfl⟩ := step_cases hs
    have hearly : s.resumedEarly f = false := by
      rw [Bool.eq_false_iff]
      exact fun he => (h.arrived.early f he).2 hpc
    exact h.returns (.inr hpc) rfl (by rw [hpc]; rfl) ⟨rfl, rfl, rfl, rfl, rfl⟩ rfl rfl
      ⟨hearly, fun _ _ => rfl⟩

theorem step_arrivals {a : Action F} (hs : step target s a = some s') :
    s'.arrivals = s.arrivals ∨ ∃ f, s.pc f = .pushing ∧ s'.arrivals = s.arrivals ++ [f] := by
  cases a with
  | wait f | count f | reduce f | lock f | run f =>
    obtain ⟨-, rfl⟩ := step_cases hs
    exact .inl rfl
  | push f =>
    obtain ⟨hpc, rfl⟩ := step_cases hs
    exact .inr ⟨f, hpc, rfl⟩
  | pop f seen =>
    obtain ⟨_, _, -, rfl⟩ := step_cases hs
    split_ifs
    · cases hq : s.queue with
      | nil => rw [pop_nil hq]; exact .inl rfl
      | cons g rest => rw [pop_cons hq]; exact .inl rfl
    · exact .inl rfl
  | raceResume f =>
    obtain ⟨_, _, -, rfl⟩ := step_cases hs
    exact .inl rfl
  | resume f =>
    obtain ⟨_, _, g, -, t, ht, rfl⟩ := step_cases hs
    rcases resume_cases ht with ⟨-, rfl⟩ | ⟨-, -, rfl⟩ <;> exact .inl rfl
  | unlock f =>
    obtain ⟨_, -, rfl⟩ := step_cases hs
    split_ifs <;> exact .inl rfl
  | suspend f =>
    obtain ⟨-, rfl⟩ := step_cases hs
    split_ifs <;> exact .inl rfl

omit [DecidableEq F] in
/-- Whose call has returned has its group complete. -/
theorem Inv.returned_complete [Fintype F] (h : Inv target s) {i : ℕ} (hi : s.result i ≠ none) :
    (i / target + 1) * target ≤ s.arrivals.length :=
  h.sections.complete h.counted (h.arrived.returned i hi)

theorem Inv.step_distinct [Fintype F] {a : Action F} (h : Inv target s)
    (hs : step target s a = some s') : Distinct target s' := by
  rcases step_arrivals hs with harrivals | ⟨f, hpc, harrivals⟩
  · rw [Distinct, harrivals]
    exact h.distinct
  · rw [Distinct, harrivals]
    intro i j g hij hi hj
    have hjlt := (List.getElem?_eq_some_iff.mp hj).1
    rw [List.length_append, List.length_singleton] at hjlt
    rw [List.getElem?_append_left (by omega)] at hi
    rcases Nat.lt_or_ge j s.arrivals.length with hlt | hge
    · rw [List.getElem?_append_left hlt] at hj
      exact h.distinct i j g hij hi hj
    · obtain rfl : j = s.arrivals.length := by omega
      rw [List.getElem?_concat_length] at hj
      obtain rfl := Option.some.inj hj
      refine h.returned_complete fun hnone => ?_
      have hin := (h.arrived.arrived i f hi hnone).1
      rw [hpc] at hin
      cases hin

/-- STEP: every step keeps the invariant. -/
theorem Inv.step [Fintype F] {a : Action F} (h : Inv target s) (htarget : 0 < target)
    (hs : step target s a = some s') : Inv target s' :=
  have hrounds := h.rounds htarget hs
  ⟨h.step_distinct hs, h.counted.step htarget h.sections hs, h.sections.step htarget hs, hrounds.1,
    hrounds.2⟩

omit [DecidableEq F] in
theorem inv_init [Fintype F] : Inv target (State.init : State F) := by
  have hzero : ∀ weight : Pc F → ℕ, weight .out = 0 → tally weight (State.init : State F).pc = 0 :=
    fun weight h => tally_eq_zero fun _ => h
  refine ⟨fun i j f _ hi => ?_, ⟨?_, ?_⟩, ⟨rfl, fun g hg => ?_, fun f => ?_, fun _ => rfl, fun f hf => ?_⟩,
    ⟨fun f hf => ?_, fun i f hi => ?_, fun i hi => ?_, fun f hf => ?_, fun f hf => ?_, fun f hf => ?_,
      fun f g hf => ?_⟩, [], ⟨fun _ => rfl, fun f hf => ?_, fun k i hk => ?_, fun _ _ => rfl,
      fun f hf => ?_, fun i r hi => ?_⟩⟩
  · simp [State.init] at hi
  · rw [hzero (Pc.todo target) rfl, hzero Pc.counts rfl]
    rfl
  · rw [hzero Pc.reduces rfl]
    exact Nat.zero_div _
  · simp [State.init] at hg
  · exact iff_of_false (by simp [State.init, Pc.holds]) (by simp [State.init])
  · simp [State.init] at hf
  · simp [State.init, Pc.inside] at hf
  · simp [State.init] at hi
  · exact absurd rfl hi
  · rcases hf with hf | hf <;> simp [State.init] at hf
  · simp [State.init] at hf
  · simp [State.init, Pc.self] at hf
  · simp [State.init, Pc.next] at hf
  · simp [State.init] at hf
  · simp at hk
  · simp [State.init, Pc.inside] at hf
  · simp [State.init] at hi

/-! ### Every reachable state -/

omit [DecidableEq F] in
/-- A place in a list of lists of one length. -/
theorem getElem?_flatten {a k : ℕ} : ∀ {groups : List (List F)} {g : List F},
    (∀ g ∈ groups, g.length = target) → groups[k]? = some g → a < target →
    groups.flatten[k * target + a]? = g[a]? := by
  induction k with
  | zero =>
    intro groups g hsize hg ha
    obtain ⟨rest, rfl⟩ : ∃ rest, groups = g :: rest := by
      cases groups with
      | nil => cases hg
      | cons g' rest => exact ⟨rest, by rw [Option.some.inj hg]⟩
    rw [Nat.zero_mul, Nat.zero_add, List.flatten_cons,
      List.getElem?_append_left (by rw [hsize g (List.mem_cons_self ..)]; exact ha)]
  | succ k ih =>
    intro groups g hsize hg ha
    cases groups with
    | nil => cases hg
    | cons g' rest =>
      have hlen := hsize g' (List.mem_cons_self ..)
      have hle : g'.length ≤ (k + 1) * target + a := by rw [hlen, Nat.succ_mul]; omega
      rw [List.flatten_cons, List.getElem?_append_right hle, hlen, Nat.succ_mul,
        ← ih (fun g hg => hsize g (List.mem_cons_of_mem g' hg)) hg ha]
      congr 1
      omega

/-- What a barrier is for: the pops partition the arrivals in groups of `target` fibres, nobody returns
    before its group is there, and one call of each group that is through has returned `true`. -/
structure Cyclic (target : ℕ) (s : State F) : Prop where
  partition : s.groups.flatten ++ s.group ++ s.queue = s.arrivals
  groups : ∀ g ∈ s.groups, g.length = target ∧ g.Nodup
  returned : ∀ i, s.result i ≠ none → (i / target + 1) * target ≤ s.arrivals.length
  exactlyOne : ∀ k, (∀ i, i / target = k → s.result i ≠ none) →
    ∃! i, i / target = k ∧ s.result i = some true
  atMostOne : ∀ i j, i / target = j / target → s.result i = some true → s.result j = some true → i = j
  waits : ∀ f i park, s.pc f = .popping i park → s.queue ≠ []
  resumes : ∀ f g i park, s.pc f = .resuming i park g → (s.resume g).isSome = true

omit [DecidableEq F] in
theorem Inv.group_nodup [Fintype F] (h : Inv target s) {g : List F} (hg : g ∈ s.groups) : g.Nodup := by
  rw [List.nodup_iff_getElem?_ne_getElem?]
  intro a b hab hb he
  have hsize := h.sections.size g hg
  obtain ⟨k, hk⟩ := List.mem_iff_getElem?.mp hg
  have hplace : ∀ c < target, s.arrivals[k * target + c]? = g[c]? := by
    intro c hc
    have hflat := getElem?_flatten h.sections.size hk hc
    have hlt : k * target + c < s.groups.flatten.length := by
      by_contra hge
      rw [List.getElem?_eq_none (by omega)] at hflat
      exact absurd (List.getElem?_eq_none_iff.mp hflat.symm) (by omega)
    rw [← h.sections.order, List.append_assoc, List.getElem?_append_left hlt, hflat]
  have hb' : s.arrivals[k * target + b]? = some g[b] := by
    rw [hplace b (by omega), List.getElem?_eq_getElem hb]
  have ha' : s.arrivals[k * target + a]? = some g[b] := by
    rw [hplace a (by omega), he, List.getElem?_eq_getElem hb]
  have hlater := h.distinct _ _ _ (by omega) ha' hb'
  rw [Nat.mul_comm k, Nat.mul_add_div (by omega), Nat.div_eq_of_lt (by omega), Nat.add_zero,
    Nat.succ_mul, Nat.mul_comm k] at hlater
  omega

omit [DecidableEq F] in
/-- A group whose calls have all returned has its mark. -/
theorem Inv.has_mark [Fintype F] (h : Inv target s) (htarget : 0 < target)
    (hmarks : Marked target marks s) {k : ℕ} (hk : ∀ i, i / target = k → s.result i ≠ none) :
    k < marks.length := by
  have hlast : (target * k + (target - 1)) / target = k := by
    rw [Nat.mul_add_div htarget, Nat.div_eq_of_lt (by omega), Nat.add_zero]
  have hret := h.arrived.returned _ (hk _ hlast)
  rw [h.sections.popped_eq, Nat.mul_comm] at hret
  have hlt : k < s.groups.length ∨ k = s.groups.length ∧ target ≤ s.group.length := by
    rcases Nat.lt_trichotomy k s.groups.length with hlt | heq | hgt
    · exact .inl hlt
    · subst heq
      exact .inr ⟨rfl, by omega⟩
    · have hle : (s.groups.length + 1) * target ≤ k * target := Nat.mul_le_mul_right target hgt
      rw [Nat.succ_mul] at hle
      cases hlock : s.lock with
      | none =>
        rw [h.sections.free hlock, List.length_nil] at hret
        omega
      | some f =>
        obtain ⟨hgroup, hloop⟩ := h.sections.holder f hlock
        have htodo := Pc.progress_add_todo ((h.sections.lock f).mpr hlock) hloop
        omega
  cases hlock : s.lock with
  | none =>
    rw [hmarks.free hlock]
    rcases hlt with hlt | ⟨-, hfull⟩
    · exact hlt
    · rw [h.sections.free hlock, List.length_nil] at hfull
      omega
  | some f =>
    have hlength := hmarks.holder f hlock
    rcases hlt with hlt | ⟨rfl, hfull⟩
    · omega
    · obtain ⟨hgroup, hloop⟩ := h.sections.holder f hlock
      have hholds := (h.sections.lock f).mpr hlock
      have hsettled : (s.pc f).settled target = true := by
        cases hpc : s.pc f with
        | popping i park =>
          rw [hpc] at hgroup hloop
          simp only [Pc.progress, Pc.inLoop] at hgroup hloop
          omega
        | racing i g =>
          -- the last of the group is still to be resumed
          exfalso
          rw [hpc] at hgroup hloop
          obtain ⟨-, hin, ha, -⟩ := h.arrived.next f g (by rw [hpc]; rfl)
          rw [h.sections.popped_eq] at ha
          simp only [Pc.progress, Pc.inLoop] at hgroup hloop
          have hag : s.arrival g = target * s.groups.length + (target - 1) := by
            rw [Nat.mul_comm]; omega
          exact hk _ (by rw [hag]; exact hlast) (h.arrived.inside g hin).2
        | resuming i park g =>
          rw [hpc] at hgroup hloop
          simp only [Pc.progress, Pc.inLoop] at hgroup hloop
          have he : i + 1 = target := by omega
          simp [Pc.settled, he]
        | unlocking park => rfl
        | _ => rw [hpc] at hholds; cases hholds
      rw [hsettled, if_pos rfl] at hlength
      omega

theorem Inv.cyclic [Fintype F] (h : Inv target s) (htarget : 0 < target) : Cyclic target s := by
  obtain ⟨marks, hmarks⟩ := h.marked
  have hmark : ∀ i, s.result i = some true → marks[i / target]? = some i := by
    intro i hi
    obtain ⟨k, hk⟩ := List.mem_iff_getElem?.mp ((hmarks.result i true hi).mp rfl)
    rwa [(hmarks.group k i hk).1]
  have hone : ∀ i j, i / target = j / target → s.result i = some true → s.result j = some true →
      i = j := by
    intro i j hij hi hj
    have hmi := hmark i hi
    rw [hij, hmark j hj] at hmi
    exact (Option.some.inj hmi).symm
  refine ⟨h.sections.order, fun g hg => ⟨h.sections.size g hg, h.group_nodup hg⟩,
    fun i hi => h.returned_complete hi, fun k hk => ?_, hone, fun f i park hpc hnil => ?_,
    fun f g i park hpc => ?_⟩
  · have hlt := h.has_mark htarget hmarks hk
    have hget := List.getElem?_eq_getElem hlt
    obtain ⟨hdiv, -⟩ := hmarks.group k _ hget
    obtain ⟨r, hr⟩ := Option.ne_none_iff_exists'.mp (hk _ hdiv)
    have htrue := (hmarks.result _ r hr).mpr (List.getElem_mem hlt)
    rw [htrue] at hr
    exact ⟨_, ⟨hdiv, hr⟩, fun j hj => hone j _ (hj.1.trans hdiv.symm) hj.2 hr⟩
  · have hqueue := h.counted.queue
    have hle := le_tally (Pc.todo target) s.pc f
    have hloop := (h.sections.of_holds (f := f) (by rw [hpc]; rfl)).2
    rw [hpc] at hle hloop
    rw [hnil, List.length_nil] at hqueue
    simp only [Pc.todo, Pc.inLoop] at hle hloop
    omega
  · obtain ⟨-, -, -, hnot⟩ := h.arrived.next f g (by rw [hpc]; rfl)
    rw [State.resume]
    split_ifs with hparked hearly
    · rfl
    · exact absurd (.inl hearly) hnot
    · rfl

/-- RUN: the barrier is cyclic, whatever the order of the steps. -/
theorem cyclic_barrier [Fintype F] (htarget : 0 < target) (h : Reach (system F target) s) :
    Cyclic target s := by
  have hinv : Inv target s :=
    h.inv (fun s h0 => by cases h0; exact inv_init) fun _ _ _ hi hs => hi.step htarget hs
  exact hinv.cyclic htarget

end Steps

/-- One round of two fibres. -/
theorem cyclic_barrier_two : ∃ s : State Bool, Reach (system Bool 2) s ∧
    (s.result 0 = some true ∧ s.result 1 = some false) ∧ Cyclic 2 s := by
  obtain ⟨s, hs, hresult⟩ := reach_of_exec (system Bool 2) State.init
    [.wait true, .push true, .wait false, .push false, .count false, .count true, .reduce true,
      .lock true, .pop true true, .pop true true, .resume true, .unlock true, .suspend false]
    (fun s => decide (s.result 0 = some true ∧ s.result 1 = some false)) rfl (by decide)
  exact ⟨s, hs, of_decide_eq_true hresult, cyclic_barrier (by decide) hs⟩

end Libfibre.FastBarrier
