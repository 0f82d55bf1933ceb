import Libfibre.LockFreeQueues.StubFifo

/-! What `QueueStub` returns and what it waits for: elements in their order and never the stub, null only
    from an empty queue, `true` to the first push after a mark; and a pop waits only for a link that a
    push is about to make. -/

namespace Libfibre.QueueStub
open Transition LinkedList

variable {N T : Type} [DecidableEq N] [DecidableEq T] {blocking : Bool} {s s' : State N T}
  {l : List (Node N)} {t : T} {p : Pc N}

/-! ### What is returned -/

omit [DecidableEq N] [DecidableEq T] in
/-- INVARIANT: a pop keeps to what its lock section has taken. -/
structure Took (s : State N T) : Prop where
  node : ∀ t v, (s.pc t).node = some v → s.took t = some v
  leave : ∀ t, s.pc t = .leave → s.took t = none

omit [DecidableEq N] in
theorem Took.move {r : Option (Node N)} (h : Took s) (hpc : s'.pc = Function.update s.pc t p)
    (htook : s'.took = Function.update s.took t r) (hnode : ∀ v, p.node = some v → r = some v)
    (hleave : p = .leave → r = none) : Took s' := by
  refine ⟨fun u v hu => ?_, fun u hu => ?_⟩ <;> rw [hpc] at hu <;> rw [htook]
  · rcases eq_or_ne u t with rfl | hne
    · rw [Function.update_self] at hu ⊢
      exact hnode v hu
    · rw [Function.update_of_ne hne] at hu ⊢
      exact h.node u v hu
  · rcases eq_or_ne u t with rfl | hne
    · rw [Function.update_self] at hu ⊢
      exact hleave hu
    · rw [Function.update_of_ne hne] at hu ⊢
      exact h.leave u hu

omit [DecidableEq N] in
theorem Took.goto (h : Took s) (hpc : s'.pc = Function.update s.pc t p) (htook : s'.took = s.took)
    (hnode : ∀ v, p.node = some v → (s.pc t).node = some v) (hleave : p ≠ .leave) : Took s' :=
  h.move hpc (htook.trans (Function.update_eq_self t s.took).symm) (fun v hv => h.node t v (hnode v hv))
    fun hp => absurd hp hleave

theorem Took.next (h : Took s) (hs : QueueStub.next blocking s t = some s') : Took s' := by
  unfold QueueStub.next at hs
  split at hs
  case h_1 => cases hs
  case h_4 =>
    obtain ⟨-, hs⟩ := Option.ite_none_right_eq_some.mp hs
    obtain rfl := Option.some.inj hs
    exact h.goto rfl rfl (fun v hv => by cases hv) (by simp)
  case h_5 =>
    obtain rfl := Option.some.inj hs
    refine h.goto rfl rfl (fun v hv => ?_) ?_
    · split_ifs at hv <;> cases hv
    · split_ifs <;> simp
  case h_6 =>
    obtain rfl := Option.some.inj hs
    rw [QueueStub.test]
    split_ifs
    · exact h.move rfl rfl (fun v hv => by cases hv) fun _ => rfl
    · exact h.move rfl rfl (fun v hv => by cases hv) fun _ => rfl
    · exact h.goto rfl rfl (fun v hv => by cases hv) (by simp)
    · exact h.move rfl rfl (fun v hv => by cases hv) fun _ => rfl
    · exact h.goto rfl rfl (fun v hv => by cases hv) (by simp)
  case h_8 =>
    obtain rfl := Option.some.inj hs
    split_ifs
    · exact h
    · exact h.goto rfl rfl (fun v hv => by cases hv) (by simp)
  case h_14 | h_15 | h_17 =>
    obtain ⟨v, hv, rfl⟩ := Option.map_eq_some_iff.mp hs
    exact h.goto rfl rfl (fun v hv => by cases hv) (by simp)
  case h_16 =>
    obtain rfl := Option.some.inj hs
    refine h.goto rfl rfl (fun v hv => ?_) ?_
    · split_ifs at hv <;> cases hv
    · split_ifs <;> simp
  case h_18 =>
    obtain rfl := Option.some.inj hs
    exact h.move rfl rfl (fun v hv => hv) (by simp)
  case h_19 v n hpc | h_20 v hpc =>
    obtain rfl := Option.some.inj hs
    exact h.goto rfl rfl (fun w hw => by rw [hpc]; exact hw) (by simp)
  all_goals
    obtain rfl := Option.some.inj hs
    exact h.goto rfl rfl (fun v hv => by cases hv) (by simp)

theorem took_reach (h : Reach (system blocking N T) s) : Took s := by
  refine h.inv (fun s hs => ?_) fun s a s' hI hs => ?_
  · obtain rfl := hs
    exact ⟨fun t v hv => (by cases hv), fun t ht => (by cases ht)⟩
  · cases a with
    | push t first rest =>
      obtain ⟨-, hs⟩ := Option.ite_none_right_eq_some.mp hs
      obtain rfl := Option.some.inj hs
      exact hI.goto rfl rfl (fun v hv => by cases hv) (by simp)
    | pop t =>
      obtain ⟨-, hs⟩ := Option.ite_none_right_eq_some.mp hs
      obtain rfl := Option.some.inj hs
      exact hI.goto rfl rfl (fun v hv => by cases hv) (by simp)
    | next t => exact hI.next hs

omit [DecidableEq N] in
theorem goto_pc : (s.goto t p).pc t = p := Function.update_self ..

/-- The last step of a call. -/
theorem last_step (hs : QueueStub.next blocking s t = some s') (hout : s'.pc t = .out) :
    (∃ prev first empty, s.pc t = .link prev first empty ∧ s'.due = s.due ∧
      s'.result t = some (.pushed empty)) ∨
    (s.pc t = .leave ∧ s'.took = s.took ∧ s'.result t = some (.popped none)) ∨
    ∃ v, s.pc t = .clear v ∧ s'.took = s.took ∧ s'.next v = none ∧
      s'.result t = some (.popped (some v)) := by
  have hgoto : ∀ {s : State N T} {p : Pc N}, (s.goto t p).pc t = .out → p = .out := fun h =>
    goto_pc.symm.trans h
  unfold QueueStub.next at hs
  split at hs
  case h_1 => cases hs
  case h_3 prev first empty hpc =>
    obtain rfl := Option.some.inj hs
    exact .inl ⟨prev, first, empty, hpc, rfl, Function.update_self ..⟩
  case h_7 hpc =>
    obtain rfl := Option.some.inj hs
    exact .inr (.inl ⟨hpc, rfl, Function.update_self ..⟩)
  case h_21 v hpc =>
    obtain rfl := Option.some.inj hs
    exact .inr (.inr ⟨v, hpc, rfl, Function.update_self .., Function.update_self ..⟩)
  case h_4 =>
    obtain ⟨-, hs⟩ := Option.ite_none_right_eq_some.mp hs
    obtain rfl := Option.some.inj hs
    cases hgoto hout
  case h_5 | h_16 =>
    obtain rfl := Option.some.inj hs
    have hp := hgoto hout
    split_ifs at hp
  case h_6 =>
    obtain rfl := Option.some.inj hs
    rw [QueueStub.test] at hout
    split_ifs at hout <;> cases hgoto hout
  case h_8 hpc =>
    obtain rfl := Option.some.inj hs
    split_ifs at hout
    · rw [hpc] at hout
      cases hout
    · cases hgoto hout
  case h_14 | h_15 | h_17 =>
    obtain ⟨v, hv, rfl⟩ := Option.map_eq_some_iff.mp hs
    cases hgoto hout
  all_goals
    obtain rfl := Option.some.inj hs
    cases hgoto hout

/-- A pop that finds nothing: everything has been popped. -/
theorem Inv.null (h : Inv s l) (hs : QueueStub.next blocking s t = some s') (hpc : s.pc t ≠ .leave)
    (hleave : s'.pc t = .leave) : s.popped = s.pushed.map Node.elem := by
  have hempty : l = [.stub] → s.popped = s.pushed.map Node.elem := by
    rintro rfl
    rw [h.history]
    exact (List.append_nil _).symm
  have hgoto : ∀ {s : State N T} {p : Pc N}, (s.goto t p).pc t = .leave → p = .leave := fun h =>
    goto_pc.symm.trans h
  unfold QueueStub.next at hs
  split at hs
  case h_1 => cases hs
  case h_6 htest =>
    obtain rfl := Option.some.inj hs
    rw [QueueStub.test] at hleave
    split_ifs at hleave with hblocking htail hmark htail
    · exact hempty (h.only_stub htest (by rw [htail]))
    · exact hempty (h.marked hmark)
    · cases hgoto hleave
    · exact hempty (h.only_stub htest (by rw [htail]))
    · cases hgoto hleave
  case h_4 =>
    obtain ⟨-, hs⟩ := Option.ite_none_right_eq_some.mp hs
    obtain rfl := Option.some.inj hs
    cases hgoto hleave
  case h_5 | h_16 =>
    obtain rfl := Option.some.inj hs
    have hp := hgoto hleave
    split_ifs at hp
  case h_8 =>
    obtain rfl := Option.some.inj hs
    split_ifs at hleave
    · exact absurd hleave hpc
    · cases hgoto hleave
  case h_14 | h_15 | h_17 =>
    obtain ⟨v, hv, rfl⟩ := Option.map_eq_some_iff.mp hs
    cases hgoto hleave
  all_goals
    obtain rfl := Option.some.inj hs
    cases hgoto hleave

/-! ### What a pop waits for -/

/-- The node whose link a thread is waiting for. -/
def Pc.waits : Pc N → Option (Node N)
  | .waitStub => some .stub
  | .waitNext _ h => some h
  | _ => none

/-- The link from `a` to `b` has been made, or is about to be made by a thread that has swung the tail. -/
def Linked (s : State N T) (a b : Node N) : Prop :=
  s.next a = some b ∨ ∃ u, (s.pc u).owes = some (a, b)

omit [DecidableEq N] [DecidableEq T] in
/-- A link that a pop waits for is owed by another thread. -/
theorem Inv.waits {v : Node N} (h : Inv s l) (hv : (s.pc t).waits = some v) (hn : s.next v = none) :
    ∃ u, u ≠ t ∧ ∃ b, (s.pc u).owes = some (v, b) := by
  obtain ⟨hlocked, howes, k, hl, hk⟩ : (s.pc t).locked = true ∧ (s.pc t).owes = none ∧
      ∃ k, l = v :: k ∧ k ≠ [] := by
    cases hpc : s.pc t <;> rw [hpc] at hv <;> cases hv
    case waitStub =>
      have hfront := h.front_of (t := t) (by rw [hpc]; rfl)
      rw [hpc] at hfront
      obtain ⟨hwhole, hhead, hne⟩ := hfront
      obtain ⟨k, rfl⟩ := hwhole.cons hhead
      exact ⟨rfl, rfl, k, rfl, fun hk => hne (by rw [hk])⟩
    case waitNext r =>
      have hfront := h.front_of (t := t) (by rw [hpc]; rfl)
      rw [hpc] at hfront
      obtain ⟨hwhole, hhead, hstub, rfl⟩ := hfront
      obtain ⟨k, rfl⟩ := hwhole.cons hhead
      refine ⟨rfl, rfl, k, rfl, ?_⟩
      rintro rfl
      exact hstub (List.mem_singleton.mp hwhole.2).symm
  subst hl
  cases k with
  | nil => exact absurd rfl hk
  | cons b k =>
    rcases h.line.links v b (adj_cons.mpr (.inl ⟨rfl, rfl⟩)) with hb | ⟨u, hu⟩
    · rw [hn] at hb
      cases hb
    · refine ⟨u, ?_, b, hu⟩
      rintro rfl
      rw [howes] at hu
      cases hu

omit [DecidableEq N] [DecidableEq T] in
theorem Whole.reaches (h : Inv s l) (hwhole : Whole s l) :
    ∃ v, s.head = some v ∧ Relation.ReflTransGen (Linked s) v .stub := by
  cases hl : l with
  | nil => exact absurd hl hwhole.ne_nil
  | cons v k =>
    rw [hl] at h hwhole
    exact ⟨v, hwhole.1, LinkedList.reaches h.line.links rfl hwhole.2⟩

omit [DecidableEq N] [DecidableEq T] in
/-- The stub can be reached from `head`, but for the thread that is moving it. -/
theorem Inv.reaches (h : Inv s l) (hpc : ∀ t, s.pc t ≠ .clearStub ∧ s.pc t ≠ .reSwing) :
    ∃ v, s.head = some v ∧ Relation.ReflTransGen (Linked s) v .stub := by
  cases hlock : s.lock with
  | none => exact (h.whole hlock).reaches h
  | some t =>
    have hfront := h.front t hlock
    have hlocked := (h.lock t).mpr hlock
    obtain ⟨hclear, hswing⟩ := hpc t
    cases hp : s.pc t <;> rw [hp] at hfront hlocked
    case clearStub => exact absurd hp hclear
    case reSwing => exact absurd hp hswing
    case setStub next => exact ⟨.stub, hfront.2.2.2, .refl⟩
    case setHead v next =>
      -- the node that has been taken is still linked to the first
      obtain ⟨-, hstub, hhead, hnext⟩ := hfront
      cases hl : l with
      | nil => rw [hl] at hstub; cases hstub
      | cons b k =>
        rw [hl] at h hstub hnext
        exact ⟨v, hhead, .head (.inl hnext) (LinkedList.reaches h.line.links rfl hstub)⟩
    case check | leave | unlock => exact Whole.reaches h hfront
    case test | waitStub | readStub | reLink | loadHead | waitHead | waitNext | readHead | readNext =>
      exact hfront.1.reaches h
    all_goals cases hlocked

/-- FIFO: what lock sections take is a prefix of what has been pushed, in the order of the tail
    exchanges; a pop returns what its section has taken, never the stub, and null only if everything has
    been popped; a push returns whether it is the first since a mark. The stub can be reached from
    `head` unless the thread in the lock section has set `head` past it and not yet swung the tail to it,
    and a pop waits only for a link that another thread, past its exchange, is about to make. -/
theorem stub_fifo (h : Reach (system blocking N T) s) :
    s.popped <+: s.pushed.map Node.elem ∧
    (∀ t s', step blocking s (.next t) = some s' → s'.pc t = .out → ∀ r,
      s'.result t = some (.popped r) →
        s'.took t = r ∧ r ≠ some .stub ∧ ∀ v, r = some v → s'.next v = none) ∧
    (∀ t s', step blocking s (.next t) = some s' → s.pc t ≠ .leave → s'.pc t = .leave →
      s.popped = s.pushed.map Node.elem) ∧
    (∀ t s', step blocking s (.next t) = some s' → s'.pc t = .out → ∀ b,
      s'.result t = some (.pushed b) → b = s'.due t) ∧
    ((∀ t, s.pc t ≠ .clearStub ∧ s.pc t ≠ .reSwing) →
      ∃ v, s.head = some v ∧ Relation.ReflTransGen (Linked s) v .stub) ∧
    ∀ t v, (s.pc t).waits = some v → s.next v = none →
      ∃ u, u ≠ t ∧ ∃ b, (s.pc u).owes = some (v, b) := by
  obtain ⟨⟨l, hI⟩, hM⟩ := inv_reach h
  have hT := took_reach h
  refine ⟨⟨_, hI.history.symm⟩, fun t s' hs hout r hr => ?_, fun t s' hs => hI.null hs,
    fun t s' hs hout b hb => ?_, hI.reaches, fun t v => hI.waits⟩
  · rcases last_step hs hout with ⟨prev, first, empty, -, -, hres⟩ | ⟨hpc, htook, hres⟩ |
      ⟨v, hpc, htook, hnext, hres⟩ <;> rw [hres] at hr <;> cases hr
    · exact ⟨by rw [htook, hT.leave t hpc], by simp, fun v hv => by cases hv⟩
    · obtain ⟨n, rfl, -⟩ := hI.node t v (by rw [hpc]; rfl)
      refine ⟨by rw [htook]; exact hT.node t _ (by rw [hpc]; rfl), by simp, fun w hw => ?_⟩
      obtain rfl := Option.some.inj hw
      exact hnext
  · rcases last_step hs hout with ⟨prev, first, empty, hpc, hdue, hres⟩ | ⟨-, -, hres⟩ |
      ⟨v, -, -, -, hres⟩ <;> rw [hres] at hb <;> cases hb
    rw [hdue]
    exact hM.due t prev first _ hpc

/-- Two pops and two pushes of a blocking queue; the second push finds the queue marked again. -/
theorem stub_fifo_two : ∃ s : State ℕ Bool, Reach (system true ℕ Bool) s ∧
    (s.pushed = [1, 2] ∧ s.result false = some (.pushed true) ∧ s.result true = some (.popped none)) ∧
    s.popped <+: s.pushed.map Node.elem := by
  obtain ⟨s, hs, htest⟩ := reach_of_exec (system true ℕ Bool) (State.init true)
    (.push false 1 [] :: List.replicate 2 (.next false) ++ .pop true :: List.replicate 17 (.next true) ++
      .pop true :: List.replicate 4 (.next true) ++ .push false 2 [] :: List.replicate 2 (.next false))
    (fun s => decide (s.pushed = [1, 2] ∧ s.result false = some (.pushed true) ∧
      s.result true = some (.popped none))) rfl (by decide)
  exact ⟨s, hs, of_decide_eq_true htest, (stub_fifo hs).1⟩

/-- While a pop moves the stub behind the only element, no link leads to it. -/
theorem stub_unreachable : ∃ s : State ℕ Bool, Reach (system true ℕ Bool) s ∧
    ∃ v, s.head = some v ∧ ¬ Relation.ReflTransGen (Linked s) v .stub := by
  obtain ⟨s, hs, htest⟩ := reach_of_exec (system true ℕ Bool) (State.init true)
    (.push false 1 [] :: List.replicate 2 (.next false) ++ .pop true :: List.replicate 6 (.next true))
    (fun s => decide (s.head = some (.elem 1) ∧ s.next (.elem 1) = none ∧
      ∀ u, (s.pc u).owes = none)) rfl (by decide)
  obtain ⟨hhead, hnext, howes⟩ := of_decide_eq_true htest
  refine ⟨s, hs, .elem 1, hhead, fun hreach => ?_⟩
  rcases hreach.cases_head with heq | ⟨b, hb | ⟨u, hu⟩, -⟩
  · cases heq
  · rw [hnext] at hb
    cases hb
  · rw [howes u] at hu
    cases hu

end Libfibre.QueueStub
