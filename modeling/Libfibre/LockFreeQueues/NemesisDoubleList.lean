import Libfibre.LockFreeQueues.NemesisDoubleSteps

/-! `NemesisDoubleQueue` refines a list: pushes append their segments in the order of their tail exchanges,
    pops take the first element, removes take the element that they are given. -/

namespace Libfibre.NemesisDoubleQueue
open Transition LinkedList

variable {N T : Type}

/-! ### The list -/

/-- A list, and what the calls in progress have taken from it. -/
structure Abstract (N T : Type) where
  list : List N
  taken : T → Option N

inductive Event (N T : Type) where
  | append (t : T) (segment : List N)
  | first (t : T) (elem : N)
  | delete (t : T) (elem : N)
  | returns (t : T) (r : Result N)

def Result.elem : Result N → Option N
  | .pushed _ => none
  | .popped elem => elem
  | .removed elem => some elem

/-- What a list does. -/
def Abstract.Does [DecidableEq N] [DecidableEq T] (q q' : Abstract N T) : Event N T → Prop
  | .append _ k => k.Nodup ∧ (∀ n ∈ k, n ∉ q.list ∧ ∀ t, q.taken t ≠ some n) ∧
    q' = { q with list := q.list ++ k }
  | .first t e => q.taken t = none ∧ q.list.head? = some e ∧
    q' = ⟨q.list.tail, Function.update q.taken t (some e)⟩
  | .delete t e => q.taken t = none ∧ e ∈ q.list ∧
    q' = ⟨q.list.erase e, Function.update q.taken t (some e)⟩
  | .returns t r => q.taken t = r.elem ∧ q' = { q with taken := Function.update q.taken t none }

def Abstract.Step [DecidableEq N] [DecidableEq T] (q q' : Abstract N T) : Option (Event N T) → Prop
  | none => q' = q
  | some event => q.Does q' event

/-- The list that the queue stands for. -/
def State.abstract (s : State N T) : Abstract N T := ⟨s.list, fun t => (s.pc t).elem⟩

/-- What a step looks like from outside: a push takes effect with its tail exchange, a pop when `Check`
    accepts, a remove when it has the lock. -/
def event (s : State N T) : Action N T → Option (Event N T)
  | .check t true =>
    match s.pc t with
    | .check elem => some (.first t elem)
    | _ => none
  | .next t =>
    match s.pc t with
    | .swing first rest => some (.append t (first :: rest))
    | .removeLock elem => some (.delete t elem)
    | .putHead .. => some (.returns t (.pushed true))
    | .putNext .. => some (.returns t (.pushed false))
    | .leave => some (.returns t (.popped none))
    | .clear op elem => some (.returns t (op.result elem))
    | _ => none
  | _ => none

/-- The fields stand for the list. -/
structure Represents (s : State N T) : Prop where
  head : s.head = s.list.head?
  tail : s.tail = s.list.getLast?
  next : ∀ a b, Adj s.list a b → s.next a = some b
  prev : ∀ a b, Adj s.list a b → s.prev b = some a
  last : ∀ z, s.list.getLast? = some z → s.next z = none

variable [DecidableEq N] [DecidableEq T]

section Refinement
variable {s s' : State N T} {l : List N} {t : T} {p : Pc N} {e n : N}

omit [DecidableEq N] in
theorem abstract_same (hpc : s'.pc = Function.update s.pc t p) (hlist : s'.list = s.list)
    (helem : p.elem = (s.pc t).elem) : s'.abstract = s.abstract := by
  have htaken : (fun u => (s'.pc u).elem) = fun u => (s.pc u).elem := by
    rw [hpc]
    refine (Function.comp_update Pc.elem s.pc t p).trans ?_
    rw [helem]
    exact Function.update_eq_self_iff.mpr rfl
  rw [State.abstract, State.abstract, hlist, htaken]

omit [DecidableEq N] in
theorem taken_update (hpc : s'.pc = Function.update s.pc t p) :
    (fun u => (s'.pc u).elem) = Function.update s.abstract.taken t p.elem := by
  rw [hpc]
  exact Function.comp_update Pc.elem s.pc t p

omit [DecidableEq N] [DecidableEq T] in
theorem Inv.mem_list (h : Inv s l) : n ∈ s.list ↔ n ∈ l ∧ (s.owner n).listed = true := by
  rw [h.owners.content, List.mem_filter]

omit [DecidableEq N] [DecidableEq T] in
theorem Inv.list_first (h : Inv s l) (hl : l.head? = some e) (he : (s.owner e).listed = true) :
    s.list.head? = some e := by
  obtain ⟨m, rfl⟩ := List.head?_eq_some_iff.mp hl
  rw [h.owners.content]
  exact congrArg List.head? (List.filter_cons_of_pos (p := fun n => (s.owner n).listed) he)

omit [DecidableEq N] [DecidableEq T] in
theorem not_taken (hpc : s.pc t = p) (hp : p.elem = none) : s.abstract.taken t = none :=
  (congrArg Pc.elem hpc).trans hp

/-- The step of a thread that the list does not notice. -/
theorem step_same (hpc : s'.pc = Function.update s.pc t p) (hlist : s'.list = s.list)
    (helem : p.elem = (s.pc t).elem) : s.abstract.Step s'.abstract none :=
  abstract_same hpc hlist helem

theorem step_returns {r : Result N} (hpc : s'.pc = Function.update s.pc t .out) (hlist : s'.list = s.list)
    (hr : (s.pc t).elem = r.elem) : s.abstract.Step s'.abstract (some (.returns t r)) := by
  refine ⟨hr, ?_⟩
  rw [State.abstract, hlist, taken_update hpc]
  rfl

theorem Inv.step_append (h : Inv s l) {k : List N} (hk : Segment s t k)
    (hpc : s'.pc = Function.update s.pc t p) (hlist : s'.list = s.list ++ k)
    (helem : p.elem = (s.pc t).elem) : s.abstract.Step s'.abstract (some (.append t k)) := by
  refine ⟨hk.nodup, fun n hn => ⟨fun hmem => ?_, fun u hu => ?_⟩, ?_⟩
  · exact h.segment_fresh hk n hn (h.mem_list.mp hmem).1
  · have := (h.owners.taking n u).mpr hu
    rw [hk.owned n hn] at this
    cases this
  · rw [State.abstract, taken_update hpc, hlist, helem]
    exact congrArg _ (Function.update_eq_self_iff.mpr rfl)

theorem Inv.step_first (h : Inv s l) (hpc : s.pc t = .check e) :
    s.abstract.Step (s.take t e (.loadNext .pop e)).abstract (some (.first t e)) := by
  obtain ⟨hl, hqueued⟩ := h.here hpc
  have hfirst := h.list_first hl (by rw [hqueued]; rfl)
  refine ⟨not_taken hpc rfl, hfirst, ?_⟩
  obtain ⟨m, hm⟩ := List.head?_eq_some_iff.mp hfirst
  rw [State.abstract, taken_update (t := t) (p := .loadNext .pop e) rfl, State.take, State.goto, hm,
    List.erase_cons_head]
  simp [State.abstract, hm, Pc.elem]

theorem Inv.step_delete (h : Inv s l) (hpc : s.pc t = .removeLock e) (hqueued : s.owner e = .queued) :
    s.abstract.Step (State.take { s with lock := some t } t e (.compare e)).abstract
      (some (.delete t e)) := by
  have hlisted : (s.owner e).listed = true := by rw [hqueued]; rfl
  refine ⟨not_taken hpc rfl, h.mem_list.mpr ⟨h.owners.listed e hlisted, hlisted⟩, ?_⟩
  rw [State.abstract, taken_update (s := s) (t := t) (p := .compare e) rfl]
  rfl

theorem Inv.simulates_next (h : Inv s l) (hs : NemesisDoubleQueue.next s t = some s') :
    s.abstract.Step s'.abstract (event s (.next t)) := by
  rw [event]
  unfold NemesisDoubleQueue.next at hs
  split at hs
  case h_1 | h_2 | h_20 | h_26 => cases hs
  case h_3 first rest hpc =>
    obtain rfl := Option.some.inj hs
    rw [hpc]
    refine h.step_append (h.owners.segment t _ (by rw [hpc]; rfl)) rfl rfl ?_
    rw [hpc]
    cases s.tail <;> rfl
  case h_4 hpc | h_6 hpc | h_9 hpc =>
    obtain rfl := Option.some.inj hs
    rw [hpc]
    exact step_returns rfl rfl (by rw [hpc]; rfl)
  case h_30 op e hpc =>
    obtain rfl := Option.some.inj hs
    rw [hpc]
    exact step_returns rfl rfl (by rw [hpc]; cases op <;> rfl)
  case h_10 hpc =>
    obtain ⟨⟨-, hqueued⟩, hs⟩ := Option.ite_none_right_eq_some.mp hs
    obtain rfl := Option.some.inj hs
    rw [hpc]
    exact h.step_delete hpc hqueued
  case h_7 hpc =>
    obtain ⟨-, hs⟩ := Option.ite_none_right_eq_some.mp hs
    obtain rfl := Option.some.inj hs
    rw [hpc]
    exact step_same rfl rfl (by rw [hpc]; rfl)
  case h_8 hpc =>
    obtain rfl := Option.some.inj hs
    rw [hpc]
    refine step_same rfl rfl ?_
    rw [hpc]
    cases s.head <;> rfl
  case h_11 hpc | h_13 hpc | h_21 hpc =>
    obtain rfl := Option.some.inj hs
    rw [hpc]
    refine step_same rfl rfl ?_
    rw [hpc]
    split <;> rfl
  case h_14 hpc | h_23 hpc =>
    split_ifs at hs <;> obtain rfl := Option.some.inj hs <;> rw [hpc] <;>
      exact step_same rfl rfl (by rw [hpc]; rfl)
  case h_15 hpc | h_24 hpc =>
    obtain rfl := Option.some.inj hs
    rw [hpc]
    split_ifs
    · rfl
    · exact step_same rfl rfl (by rw [hpc]; rfl)
  all_goals
    rename_i hpc
    obtain rfl := Option.some.inj hs
    rw [hpc]
    exact step_same rfl rfl (by rw [hpc]; rfl)

theorem Inv.simulates {a : Action N T} (h : Inv s l) (hs : NemesisDoubleQueue.step s a = some s') :
    s.abstract.Step s'.abstract (event s a) := by
  cases a with
  | push t first rest =>
    obtain ⟨⟨hpc, -⟩, hs⟩ := Option.ite_none_right_eq_some.mp hs
    obtain rfl := Option.some.inj hs
    exact step_same rfl rfl (by rw [hpc]; rfl)
  | pop t | remove t e =>
    obtain ⟨hpc, hs⟩ := Option.ite_none_right_eq_some.mp hs
    obtain rfl := Option.some.inj hs
    exact step_same rfl rfl (by rw [hpc]; rfl)
  | check t accept =>
    rw [NemesisDoubleQueue.step] at hs
    split at hs
    case h_1 e hpc =>
      obtain rfl := Option.some.inj hs
      cases accept with
      | true =>
        rw [event, hpc]
        exact h.step_first hpc
      | false => exact step_same (p := .leave) rfl rfl (by rw [hpc]; rfl)
    case h_2 => cases hs
  | next t => exact h.simulates_next hs

/-! ### Calls -/

theorem next_pc (hs : NemesisDoubleQueue.next s t = some s') : ∃ p, s'.pc = Function.update s.pc t p := by
  unfold NemesisDoubleQueue.next at hs
  split at hs
  case h_1 | h_2 | h_20 | h_26 => cases hs
  case h_7 | h_10 =>
    obtain ⟨-, hs⟩ := Option.ite_none_right_eq_some.mp hs
    obtain rfl := Option.some.inj hs
    exact ⟨_, rfl⟩
  case h_14 | h_23 =>
    split_ifs at hs <;> obtain rfl := Option.some.inj hs <;> exact ⟨_, rfl⟩
  case h_15 | h_24 =>
    obtain rfl := Option.some.inj hs
    split_ifs
    · exact ⟨s.pc t, (Function.update_eq_self t s.pc).symm⟩
    · exact ⟨_, rfl⟩
  all_goals
    obtain rfl := Option.some.inj hs
    exact ⟨_, rfl⟩

/-- A call ends with a return, and what it has taken is not linked any more. -/
theorem next_out (hs : NemesisDoubleQueue.next s t = some s') (hout : s'.pc t = .out) :
    ∃ r, event s (.next t) = some (.returns t r) ∧ s'.result t = some r ∧
      ∀ e, r.elem = some e → s'.next e = none := by
  have hgoto : ∀ (r : State N T) (p : Pc N), (r.goto t p).pc t = p := fun r p => Function.update_self ..
  rw [event]
  unfold NemesisDoubleQueue.next at hs
  split at hs
  case h_1 | h_2 | h_20 | h_26 => cases hs
  case h_4 hpc | h_6 hpc | h_9 hpc =>
    obtain rfl := Option.some.inj hs
    rw [hpc]
    exact ⟨_, rfl, Function.update_self .., fun e he => by cases he⟩
  case h_30 op e hpc =>
    obtain rfl := Option.some.inj hs
    rw [hpc]
    refine ⟨_, rfl, Function.update_self .., fun e' he => ?_⟩
    have hee : e = e' := by
      cases op
      · exact Option.some.inj he
      · exact Option.some.inj he
    rw [← hee]
    exact Function.update_self ..
  case h_7 | h_10 =>
    obtain ⟨-, hs⟩ := Option.ite_none_right_eq_some.mp hs
    obtain rfl := Option.some.inj hs
    cases (hgoto _ _).symm.trans hout
  case h_14 | h_23 =>
    split_ifs at hs <;> obtain rfl := Option.some.inj hs <;> cases (hgoto _ _).symm.trans hout
  case h_15 hpc | h_24 hpc =>
    obtain rfl := Option.some.inj hs
    split_ifs at hout
    · rw [hpc] at hout
      cases hout
    · cases (hgoto _ _).symm.trans hout
  case h_3 | h_8 | h_11 | h_13 | h_21 =>
    obtain rfl := Option.some.inj hs
    rw [hgoto] at hout
    split at hout <;> cases hout
  all_goals
    obtain rfl := Option.some.inj hs
    cases (hgoto _ _).symm.trans hout

theorem step_out {a : Action N T} (hs : NemesisDoubleQueue.step s a = some s') (hout : s'.pc t = .out) :
    s.pc t = .out ∨ ∃ r, event s a = some (.returns t r) ∧ s'.result t = some r ∧
      ∀ e, r.elem = some e → s'.next e = none := by
  have hgoto : ∀ {r : State N T} {u : T} {p : Pc N}, p ≠ .out → (r.goto u p).pc t = .out →
      r.pc t = .out := fun {r u p} hp hout => by
    have hut : t ≠ u := by
      rintro rfl
      have hpc : (r.goto t p).pc t = p := Function.update_self ..
      exact hp (hpc.symm.trans hout)
    have hpc : (r.goto u p).pc t = r.pc t := Function.update_of_ne hut ..
    exact hpc.symm.trans hout
  cases a with
  | push u first rest | pop u | remove u e =>
    obtain ⟨-, hs⟩ := Option.ite_none_right_eq_some.mp hs
    obtain rfl := Option.some.inj hs
    exact .inl (hgoto (by simp) hout)
  | check u accept =>
    rw [NemesisDoubleQueue.step] at hs
    split at hs
    case h_1 e hpc =>
      obtain rfl := Option.some.inj hs
      cases accept with
      | true => exact .inl (hgoto (p := .loadNext .pop e) (by simp) hout)
      | false => exact .inl (hgoto (p := .leave) (by simp) hout)
    case h_2 => cases hs
  | next u =>
    rcases eq_or_ne t u with rfl | hut
    · exact .inr (next_out hs hout)
    · obtain ⟨p, hp⟩ := next_pc hs
      rw [hp, Function.update_of_ne hut] at hout
      exact .inl hout

omit [DecidableEq N] [DecidableEq T] in
/-- `head` is null for a pop only if there is nothing, or the first element is being pushed. -/
theorem Inv.load_null (h : Inv s l) (hpc : s.pc t = .load) (hhead : s.head = none) :
    s.list = [] ∨ ∃ first u, s.list.head? = some first ∧ s.owner first = .linking u := by
  by_cases hlead : ∃ u, (s.pc u).leads = true
  · obtain ⟨u, hu⟩ := hlead
    have hut : u ≠ t := by
      rintro rfl
      rw [hpc] at hu
      cases hu
    obtain ⟨-, first, hl, howner⟩ := h.putting (t := t) (by rw [hpc]; rfl) hut hu
    exact .inr ⟨first, u, h.list_first hl (by rw [howner]; rfl), howner⟩
  · have hl := h.turns.head fun u => by
      by_contra hu
      exact hlead ⟨u, by simpa using hu⟩
    rw [hhead] at hl
    left
    rw [h.owners.content, List.head?_eq_none_iff.mp hl.symm]
    rfl

omit [DecidableEq N] [DecidableEq T] in
theorem Inv.represents (h : Inv s l) (hquiet : ∀ t, s.pc t = .out) : Represents s := by
  have howes : (fun t => (s.pc t).owes) = fun _ => none := by
    funext t
    rw [hquiet t]
    rfl
  have hline := h.links.line
  rw [howes] at hline
  have hlist : s.list = l := by
    refine h.owners.content.trans (List.filter_eq_self.mpr fun n hn => ?_)
    have hinside := h.owners.inside n hn
    cases howner : s.owner n with
    | linking u | queued => rfl
    | free | pushing u => rw [howner] at hinside; cases hinside
    | taking u =>
      have := (h.owners.taking n u).mp howner
      rw [hquiet u] at this
      cases this
  rw [← hlist] at hline
  refine ⟨hlist ▸ h.turns.head fun t => by rw [hquiet t]; rfl, hline.last, fun a b hab => ?_,
    fun a b hab => (h.links.back a b (hlist ▸ hab)).resolve_right fun ⟨t, ht⟩ => ?_, hline.ends⟩
  · exact (hline.links a b hab).resolve_right fun ⟨t, ht⟩ => by cases ht
  · rw [hquiet t] at ht
    cases ht

/-- The assertion in `push` holds: the segment's last element is not linked. -/
theorem last_null {first : N} {rest : List N} (h : Reach (system N T) s) (hpc : s.pc t = .swing first rest)
    {last : N} (hlast : (first :: rest).getLast? = some last) : s.next last = none := by
  obtain ⟨l, hI⟩ := inv_reach h
  exact (hI.owners.segment t (first :: rest) (by rw [hpc]; rfl)).ends last hlast

/-- The queue refines a list: each step does what a list does, `Check` is asked about the first element, a
    call returns what it has taken, unlinked; and while no call is in progress the fields are the list. -/
theorem nemesis_double_list (h : Reach (system N T) s) :
    (State.init : State N T).abstract = ⟨[], fun _ => none⟩ ∧ s.list.Nodup ∧
    (∀ a s', step s a = some s' → s.abstract.Step s'.abstract (event s a)) ∧
    (∀ t e, s.pc t = .check e → s.list.head? = some e) ∧
    (∀ t, s.pc t = .load → s.head = none →
      s.list = [] ∨ ∃ first u, s.list.head? = some first ∧ s.owner first = .linking u) ∧
    (∀ a s' t, step s a = some s' → s'.pc t = .out → s.pc t = .out ∨
      ∃ r, event s a = some (.returns t r) ∧ s'.result t = some r ∧
        ∀ e, r.elem = some e → s'.next e = none) ∧
    ((∀ t, s.pc t = .out) → Represents s) := by
  obtain ⟨l, hI⟩ := inv_reach h
  refine ⟨rfl, ?_, fun a s' hs => hI.simulates hs, fun t e hpc => ?_, fun t => hI.load_null,
    fun a s' t => step_out, hI.represents⟩
  · rw [hI.owners.content]
    exact hI.links.line.nodup.filter _
  · obtain ⟨hl, hqueued⟩ := hI.here hpc
    exact hI.list_first hl (by rw [hqueued]; rfl)

end Refinement

/-- The last element is removed while a push has swung the tail but not linked up to it yet. -/
theorem nemesis_double_list_race : ∃ s : State ℕ Bool, Reach (system ℕ Bool) s ∧
    (s.list = [1, 2, 4] ∧ s.result true = some (.removed 3) ∧ s.next 3 = none) ∧ Represents s := by
  obtain ⟨s, hs, htest⟩ := reach_of_exec (system ℕ Bool) State.init
    ([.push false 1 [], .next false, .next false, .push false 2 [3], .next false, .next false, .next false,
      .remove true 3, .next true, .next true, .next true, .next true, .next true,
      .push false 4 [], .next false, .next true, .next true, .next false, .next false,
      .next true, .next true, .next true, .next true, .next true, .next true])
    (fun s => decide ((s.list = [1, 2, 4] ∧ s.result true = some (.removed 3) ∧ s.next 3 = none) ∧
      ∀ t, s.pc t = .out)) rfl (by decide)
  obtain ⟨hlist, hquiet⟩ := of_decide_eq_true htest
  obtain ⟨-, -, -, -, -, -, hrepresents⟩ := nemesis_double_list hs
  exact ⟨s, hs, hlist, hrepresents hquiet⟩

end Libfibre.NemesisDoubleQueue
