import Libfibre.LockFreeQueues.NemesisFifo

/-! What a thread does in its calls of `QueueNemesis`, for those that build on the queue: which kind of
    call it is in, when a pop finds nothing and what it waits for. -/

namespace Libfibre.QueueNemesis
open Transition LinkedList

variable {N T : Type}

def Pc.pushes : Pc N → Bool
  | .swing .. | .link .. => true
  | _ => false

def Pc.pops : Pc N → Bool
  | .out | .swing .. | .link .. => false
  | _ => true

/-- What a step of `t` in a call leaves as it was: where the others are, and what kind of call it is. -/
structure Stays (t : T) (s s' : State N T) : Prop where
  others : ∀ u, u ≠ t → s'.pc u = s.pc u ∧ s'.result u = s.result u ∧ s'.took u = s.took u
  pushes : (s.pc t).pushes = true → (s'.pc t).pops = false
  pops : (s.pc t).pops = true → (s'.pc t).pushes = false
  result : (s.pc t).pops = true → s'.pc t = .out → ∃ r, s'.result t = some (.popped r)

section Steps
variable [DecidableEq N] [DecidableEq T] {s s' : State N T} {t : T} {p : Pc N}

omit [DecidableEq N] in
/-- To another place in the same call. -/
theorem Stays.goto (hpc : s'.pc = Function.update s.pc t p) (hresult : s'.result = s.result)
    (htook : ∀ u, u ≠ t → s'.took u = s.took u) (hpush : (s.pc t).pushes = true → p.pops = false)
    (hpop : (s.pc t).pops = true → p.pops = true) : Stays t s s' where
  others u hu := ⟨by rw [hpc, Function.update_of_ne hu], by rw [hresult], htook u hu⟩
  pushes h := by
    rw [hpc, Function.update_self]
    exact hpush h
  pops h := by
    rw [hpc, Function.update_self]
    have hp := hpop h
    cases p <;> first | rfl | cases hp
  result h hout := by
    rw [hpc, Function.update_self] at hout
    rw [hout] at hpop
    cases hpop h

omit [DecidableEq N] in
/-- Out of the call. -/
theorem Stays.returns {r : Result N} (hpc : s'.pc = Function.update s.pc t .out)
    (hresult : s'.result = Function.update s.result t (some r)) (htook : s'.took = s.took)
    (hpop : (s.pc t).pops = true → ∃ e, r = .popped e) : Stays t s s' where
  others u hu :=
    ⟨by rw [hpc, Function.update_of_ne hu], by rw [hresult, Function.update_of_ne hu], by rw [htook]⟩
  pushes _ := by
    rw [hpc, Function.update_self]
    rfl
  pops _ := by
    rw [hpc, Function.update_self]
    rfl
  result h _ := by
    obtain ⟨e, rfl⟩ := hpop h
    exact ⟨e, by rw [hresult, Function.update_self]⟩

theorem stays (hs : QueueNemesis.next s t = some s') : Stays t s s' := by
  unfold QueueNemesis.next at hs
  split at hs
  case h_1 => cases hs
  case h_2 hpc | h_8 hpc | h_9 hpc | h_10 hpc | h_11 hpc | h_15 hpc | h_16 hpc =>
    obtain rfl := Option.some.inj hs
    exact .goto rfl rfl (fun _ _ => rfl) (by rw [hpc]; simp [Pc.pushes, Pc.pops])
      (by rw [hpc]; simp [Pc.pops])
  case h_3 hpc | h_4 hpc =>
    obtain rfl := Option.some.inj hs
    exact .returns rfl rfl rfl (by rw [hpc]; simp [Pc.pops])
  case h_7 hpc | h_12 hpc | h_17 hpc =>
    obtain rfl := Option.some.inj hs
    exact .returns rfl rfl rfl fun _ => ⟨_, rfl⟩
  case h_5 hpc =>
    obtain ⟨-, hs⟩ := Option.ite_none_right_eq_some.mp hs
    obtain rfl := Option.some.inj hs
    exact .goto rfl rfl (fun _ _ => rfl) (by rw [hpc]; simp [Pc.pushes]) fun _ => rfl
  case h_6 hpc =>
    split at hs
    all_goals
      obtain rfl := Option.some.inj hs
      exact .goto rfl rfl (fun _ hu => Function.update_of_ne hu ..) (by rw [hpc]; simp [Pc.pushes])
        fun _ => rfl
  case h_13 hpc =>
    split at hs
    · obtain rfl := Option.some.inj hs
      exact .returns rfl rfl rfl fun _ => ⟨_, rfl⟩
    · obtain rfl := Option.some.inj hs
      exact .goto rfl rfl (fun _ _ => rfl) (by rw [hpc]; simp [Pc.pushes]) fun _ => rfl
  case h_14 e hpc =>
    obtain rfl := Option.some.inj hs
    split
    · exact .goto (p := s.pc t) (Function.update_eq_self t s.pc).symm rfl (fun _ _ => rfl)
        (by rw [hpc]; simp [Pc.pushes]) id
    · exact .goto rfl rfl (fun _ _ => rfl) (by rw [hpc]; simp [Pc.pushes]) fun _ => rfl

/-! ### What a pop finds -/

variable {q l : List N}

omit [DecidableEq N] [DecidableEq T] in
/-- If nobody else pops, `head` is null only of an empty queue, or while the first of the queue is being
    pushed. -/
theorem Inv.null (h : Inv s q l) (hpc : s.pc t = .load) (hhead : s.head = none)
    (halone : ∀ u, (s.pc u).pops = true → u = t) :
    s.pushed = s.popped ∨ ∃ u first rest, u ≠ t ∧ s.pc u = .link none first ∧
      s.pushed = s.popped ++ first :: rest := by
  have hempty : s.head = q.head? → s.pushed = s.popped := by
    intro hq
    rw [hhead] at hq
    rw [h.history, List.head?_eq_none_iff.mp hq.symm, List.append_nil]
  rcases h.front with ⟨u, hu⟩ | ⟨-, hq, -⟩
  · have hpush : ∀ p, s.pc u = p → p.pops = true → p.leads = true → False := by
      rintro p rfl hpops hleads
      rw [halone u hpops, hpc] at hleads
      cases hleads
    cases hp : s.pc u <;> rw [hp] at hu
    case link prev first =>
      cases prev with
      | none =>
        obtain ⟨-, hfirst, -⟩ := hu
        cases q with
        | nil => cases hfirst
        | cons x rest =>
          obtain rfl := Option.some.inj hfirst
          refine .inr ⟨u, x, rest, ?_, hp, h.history⟩
          rintro rfl
          rw [hpc] at hp
          cases hp
      | some prev => exact hu.elim
    all_goals first
      | exact hu.elim
      | exact (hpush _ hp rfl hu.leads).elim
  · exact .inl (hempty hq)

omit [DecidableEq N] [DecidableEq T] in
/-- A null `tail` is one of an empty queue. -/
theorem Inv.tail_null (h : Inv s q l) (htail : s.tail = none) : s.pushed = s.popped := by
  have hl : l = [] := by
    rw [h.line.last] at htail
    exact List.getLast?_eq_none_iff.mp htail
  have hq : q = [] := by
    rcases h.front with ⟨u, hu⟩ | ⟨-, -, heq⟩
    · subst hl
      revert hu
      cases s.pc u <;> intro hu
      case link prev first =>
        cases prev with
        | none => exact hu.2.2.symm
        | some prev => exact hu.elim
      case setHead e next =>
        cases next with
        | none => cases hu.2
        | some n => exact hu.2.2.symm
      case unlock e next =>
        cases next with
        | none => cases hu.2
        | some n => exact hu.elim
      case wait => cases hu.2.1
      case read => cases hu.2.1
      case invalidate => exact hu.2.1.symm
      case fixHead => exact hu.2.1.symm
      all_goals first
        | exact hu.elim
        | cases hu.2
    · rw [← heq, hl]
  rw [h.history, hq, List.append_nil]

omit [DecidableEq N] [DecidableEq T] in
/-- A pop waits for the push that owes the link of its element. -/
theorem Inv.waits {e : N} (h : Inv s q l) (hpc : s.pc t = .wait e) (hnext : s.next e = none) :
    ∃ u first, s.pc u = .link (some e) first := by
  have hfront := h.front_of (t := t) (by rw [hpc]; rfl)
  rw [hpc] at hfront
  obtain ⟨-, hl, hq⟩ := hfront
  cases q with
  | nil => exact absurd rfl hq
  | cons x rest =>
    have hadj : Adj l e x := by
      rw [hl]
      exact adj_cons.mpr (.inl ⟨rfl, rfl⟩)
    rcases h.line.links e x hadj with hx | ⟨u, hu⟩
    · rw [hnext] at hx
      cases hx
    · refine ⟨u, x, ?_⟩
      cases hp : s.pc u <;> rw [hp] at hu
      case link prev first =>
        cases prev with
        | none => cases hu
        | some prev =>
          obtain ⟨rfl, rfl⟩ := Prod.mk.inj (Option.some.inj hu)
          rfl
      all_goals cases hu

end Steps

end Libfibre.QueueNemesis
