import Libfibre.Container.Stack

/-! `Queue` (`Container.h`): a chain of links from `head` to the sentinel, with `tail` at its last node.
    Both are the sentinel when it is empty.

        head ─▶ a ─▶ b ─▶ c ─▶ Sentinel        pop(2): b's link is nulled, head is c
                          ▲
                        tail                   pop(5): c's link is nulled, both are the sentinel

    `pop(count)` stops at the sentinel and tells in `count` how far it got. On an empty queue it has
    returned before it looks at `count`. -/

namespace Libfibre.Queue
open LinkPath
open Stack (Ptr deref lastOf Op)

/-- `head`, `tail`, and `Next` of every node. -/
structure Heap (N : Type) where
  head : Ptr N
  tail : Ptr N
  next : N → Ptr N

variable {N : Type} [DecidableEq N]

/-- `Next(*p) = q`. -/
def assign (h : Heap N) (p q : Ptr N) : Option (Heap N) :=
  match p with
  | .node n => some { h with next := Function.update h.next n q }
  | _ => none

/-- `empty()`, with its assertion. -/
def empty (h : Heap N) : Option Bool :=
  if (h.head = .sentinel) = (h.tail = .sentinel) then some (decide (h.head = .sentinel)) else none

/-- `push(first, last)`, with its assertion. -/
def push (h : Heap N) (first last : N) : Option (Heap N) := do
  guard (h.next last = .null)
  let h := { h with next := Function.update h.next last .sentinel }
  let h ← if ← empty h then some { h with head := .node first } else assign h h.tail (.node first)
  return { h with tail := .node last }

/-- The loop of `popHelper(elem, count)`. -/
def popLoop (next : N → Ptr N) (i count : ℕ) (elem : Ptr N) : Option (Ptr N × ℕ) :=
  if i < count then
    (deref next elem).bind fun p =>
      if p = .sentinel then popLoop next (i + 1) i elem else popLoop next (i + 1) count p
  else some (elem, count)
termination_by count - i

/-- What `pop` does from its helper on. -/
def detach (h : Heap N) (elem : Ptr N) : Option (Heap N) := do
  let h := { h with head := ← deref h.next elem }
  let h := if h.tail = elem then { h with tail := .sentinel } else h
  assign h elem .null

/-- `pop()`. -/
def pop (h : Heap N) : Option (Heap N × Ptr N) := do
  if ← empty h then return (h, .null)
  return (← detach h h.head, h.head)

/-- `pop(count)`: what it returns, and `count` as it leaves it. -/
def popCount (h : Heap N) (count : ℕ) : Option (Heap N × Ptr N × ℕ) := do
  if ← empty h then return (h, .null, count)
  let (elem, count) ← popLoop h.next 1 count h.head
  return (← detach h elem, elem, count)

/-! ### The list that a queue is -/

/-- The last node of a list, or the sentinel. -/
def back (l : List N) : Ptr N := (l.getLast?.map .node).getD .sentinel

/-- From `head` the links go through the list to the sentinel; `tail` is its last node. -/
structure Holds (h : Heap N) (l : List N) : Prop where
  head : h.head = first .node l .sentinel
  tail : h.tail = back l
  links : Links .node h.next l .sentinel
  nodup : l.Nodup

/-- What a caller has to see to: it leaves the links of the queue alone, pushes detached chains and
    asks for one node at least. -/
def Pre (h : Heap N) (l : List N) : Op N → Prop
  | .link n _ => n ∉ l
  | .push chain => chain ≠ [] ∧ (chain ++ l).Nodup ∧ Links .node h.next chain .null
  | .pop => True
  | .popCount count => 1 ≤ count

/-- An operation, with what it returns and `count` as it leaves it. -/
def exec (h : Heap N) : Op N → Option (Heap N × Ptr N × ℕ)
  | .link n p => some ({ h with next := Function.update h.next n p }, .null, 0)
  | .push chain =>
    match chain.head?, chain.getLast? with
    | some a, some z => (push h a z).map fun h' => (h', .null, 0)
    | _, _ => none
  | .pop => (pop h).map fun r => (r.1, r.2, 0)
  | .popCount count => popCount h count

/-- The list afterwards: in at the back, out at the front. -/
def apply (l : List N) : Op N → List N
  | .link _ _ => l
  | .push chain => l ++ chain
  | .pop => l.drop 1
  | .popCount count => l.drop count

/-- What is returned: the last node that leaves; `count` becomes the number of them, unless the queue
    is empty. -/
def result (l : List N) (op : Op N) : Ptr N × ℕ :=
  match op with
  | .popCount count => (lastOf (op.removed l), if l = [] then count else min count l.length)
  | _ => (lastOf (op.removed l), 0)

/-- The nodes whose links are written. -/
def written (l : List N) : Op N → List N
  | .link n _ => [n]
  | .push chain => chain.getLast?.toList ++ l.getLast?.toList
  | op => (op.removed l).getLast?.toList

/-- An operation does to the queue what it does to the list, and to nothing else. -/
structure Correct (h h' : Heap N) (l : List N) (op : Op N) (r : Ptr N × ℕ) : Prop where
  holds : Holds h' (apply l op)
  result : r = Queue.result l op
  /-- The nodes that leave keep their order, with a null link at the end. -/
  detached : Links .node h'.next (op.removed l) .null
  others : ∀ n ∉ written l op, h'.next n = h.next n

/-- The runs from an empty queue, over any memory. -/
inductive Reach : Heap N → List N → Prop where
  | empty (next : N → Ptr N) : Reach ⟨.sentinel, .sentinel, next⟩ []
  | step {h h' : Heap N} {l : List N} {op : Op N} {r : Ptr N × ℕ} (before : Reach h l)
      (pre : Pre h l op) (exec : exec h op = some (h', r)) : Reach h' (apply l op)

/-! ### The operations -/

variable {h : Heap N} {l : List N}

omit [DecidableEq N] in
@[simp] theorem back_nil : back ([] : List N) = .sentinel := rfl

omit [DecidableEq N] in
theorem back_append {k : List N} (hk : k ≠ []) : back (l ++ k) = back k := by
  rw [back, back, List.getLast?_append_of_ne_nil l hk]

omit [DecidableEq N] in
theorem back_eq_node {a : N} : back l = .node a ↔ l.getLast? = some a := by
  cases hl : l.getLast? <;> simp [back, hl]

omit [DecidableEq N] in
theorem back_eq_sentinel : back l = .sentinel ↔ l = [] := by
  cases hl : l.getLast? with
  | none => simp [back, List.getLast?_eq_none_iff.mp hl]
  | some a =>
    have hne : l ≠ [] := by rintro rfl; simp at hl
    simp [back, hl, hne]

omit [DecidableEq N] in
theorem Holds.head_iff (hh : Holds h l) : h.head = .sentinel ↔ l = [] := by
  rw [hh.head]
  cases l <;> simp

omit [DecidableEq N] in
/-- TAIL: it is the sentinel exactly when the queue is empty. -/
theorem Holds.tail_iff (hh : Holds h l) : h.tail = .sentinel ↔ l = [] := by
  rw [hh.tail, back_eq_sentinel]

theorem Holds.empty (hh : Holds h l) : empty h = some (decide (l = [])) := by
  simp only [Queue.empty, hh.head_iff, hh.tail_iff, if_true]

/-- The first nodes are taken off, the last of them given; `tail` is reset if none is left. -/
theorem detach_spec {k : List N} {z : N} (hh : Holds h (k ++ l)) (hz : k.getLast? = some z) :
    ∃ h', detach h (.node z) = some h' ∧ Holds h' l ∧ Links .node h'.next k .null ∧
      ∀ n ≠ z, h'.next n = h.next n := by
  have hend := (Links.append_iff.mp hh.links).1.last hz
  obtain ⟨hk, hl⟩ := hh.links.detach (r := .null) hh.nodup hz
  obtain ⟨-, hnodup, hdisj⟩ := List.nodup_append.mp hh.nodup
  have htail : (if h.tail = .node z then .sentinel else h.tail) = back l := by
    rw [hh.tail]
    rcases List.eq_nil_or_concat' l with rfl | ⟨l, b, rfl⟩
    · rw [List.append_nil, if_pos (back_eq_node.mpr hz), back_nil]
    · have hbz : b ≠ z := (hdisj z (List.mem_of_getLast? hz) b (by simp)).symm
      rw [back_append (by simp), if_neg]
      rwa [back_eq_node, List.getLast?_concat, Option.some.injEq]
  refine ⟨⟨h.next z, back l, Function.update h.next z .null⟩, ?_, ⟨hend, rfl, hl, hnodup⟩, hk,
    fun n hn => Function.update_of_ne hn _ _⟩
  rw [← htail]
  by_cases hlast : h.tail = .node z <;> simp [detach, deref, assign, hlast]

/-- The loop goes on to the next node until it has enough or is at the last one. -/
theorem popLoop_spec {next : N → Ptr N} {i count : ℕ} {a : N} {v : List N}
    (hlinks : Links .node next (a :: v) .sentinel) (hi : i ≤ count) :
    ∃ k w z, a :: v = k ++ w ∧ k.getLast? = some z ∧
      k.length + i = min count (i + v.length) + 1 ∧
      popLoop next i count (.node a) = some (.node z, min count (i + v.length)) := by
  induction v generalizing i a with
  | nil =>
    refine ⟨[a], [], a, rfl, rfl, by simp [hi, Nat.add_comm], ?_⟩
    rcases Nat.eq_or_lt_of_le hi with rfl | hlt
    · rw [popLoop, if_neg (by omega), List.length_nil, Nat.add_zero, Nat.min_self]
    · -- the link of the last node is the sentinel: `count` is set and ends the loop
      rw [popLoop, if_pos hlt, deref, Option.bind_some, hlinks.1, first_nil, if_pos rfl, popLoop,
        if_neg (by omega), List.length_nil, Nat.add_zero, Nat.min_eq_right hi]
  | cons b v ih =>
    rcases Nat.eq_or_lt_of_le hi with rfl | hlt
    · refine ⟨[a], b :: v, a, rfl, rfl, by simp [Nat.add_comm], ?_⟩
      rw [popLoop, if_neg (by omega), Nat.min_eq_left (by omega)]
    · obtain ⟨k, w, z, hsplit, hz, hlen, hloop⟩ := ih hlinks.2 (i := i + 1) hlt
      rw [show i + 1 + v.length = i + (b :: v).length by rw [List.length_cons]; omega] at hlen hloop
      refine ⟨a :: k, w, z, by rw [hsplit, List.cons_append], ?_, ?_, ?_⟩
      · rw [List.getLast?_cons, hz, Option.getD_some]
      · rw [List.length_cons]; omega
      · rw [popLoop, if_pos hlt, deref, Option.bind_some, hlinks.1, first_cons,
          if_neg (by simp), hloop]

theorem push_first {a z : N} (hnull : h.next z = .null) (hhead : h.head = .sentinel)
    (htail : h.tail = .sentinel) :
    push h a z = some ⟨.node a, .node z, Function.update h.next z .sentinel⟩ := by
  simp [push, empty, hnull, hhead, htail, guard]

theorem push_behind {a z t : N} (hnull : h.next z = .null) (hhead : h.head ≠ .sentinel)
    (htail : h.tail = .node t) : push h a z = some
      ⟨h.head, .node z, Function.update (Function.update h.next z .sentinel) t (.node a)⟩ := by
  simp [push, empty, hnull, hhead, htail, guard, assign]

theorem link_correct (hh : Holds h l) {n : N} {p : Ptr N} (hn : n ∉ l) :
    ∃ h' r, exec h (.link n p) = some (h', r) ∧ Correct h h' l (.link n p) r := by
  refine ⟨_, _, rfl, ⟨hh.head, hh.tail, hh.links.other hn, hh.nodup⟩, rfl, trivial, fun m hm => ?_⟩
  exact Function.update_of_ne (List.ne_of_not_mem_cons hm) _ _

theorem push_correct (hh : Holds h l) {chain : List N} (hpre : Pre h l (.push chain)) :
    ∃ h' r, exec h (.push chain) = some (h', r) ∧ Correct h h' l (.push chain) r := by
  obtain ⟨hne, hnodup, hlinks⟩ := hpre
  obtain ⟨a, ha⟩ : ∃ a, chain.head? = some a := ⟨_, List.head?_eq_some_head hne⟩
  obtain ⟨z, hz⟩ : ∃ z, chain.getLast? = some z := ⟨_, List.getLast?_eq_some_getLast hne⟩
  have hfirst : ∀ q, first Ptr.node chain q = .node a := by
    obtain ⟨c, rfl⟩ := List.head?_eq_some_iff.mp ha
    exact fun _ => rfl
  have hback : Ptr.node z = back chain := (back_eq_node.mpr hz).symm
  have hnull : h.next z = .null := hlinks.last hz
  have hsplit := List.nodup_append.mp hnodup
  rcases List.eq_nil_or_concat' l with rfl | ⟨u, t, rfl⟩
  · refine ⟨⟨.node a, .node z, Function.update h.next z .sentinel⟩, (.null, 0), ?_, ⟨?_, hback, ?_, ?_⟩,
      rfl, trivial, fun m hm => ?_⟩
    · simp only [exec, ha, hz, push_first hnull (hh.head_iff.mpr rfl) (hh.tail_iff.mpr rfl),
        Option.map_some]
    · exact (hfirst _).symm
    · exact hlinks.retarget hsplit.1 hz
    · exact hsplit.1
    · exact Function.update_of_ne (by simpa [written, hz] using hm) _ _
  · have htail : h.tail = .node t := by rw [hh.tail, back_eq_node, List.getLast?_concat]
    have hhead : h.head ≠ .sentinel := by simp [hh.head_iff]
    have hperm : (u ++ [t] ++ chain).Nodup := List.nodup_append_comm.mp hnodup
    have hwhole := Links.insert (u := u ++ [t]) (v := []) (by rw [List.append_nil]; exact hh.links)
      hlinks (by rw [List.append_nil]; exact hperm) List.getLast?_concat hz
    rw [List.append_nil, first_nil, hfirst] at hwhole
    refine ⟨⟨h.head, .node z, Function.update (Function.update h.next z .sentinel) t (.node a)⟩,
      (.null, 0), ?_, ⟨?_, ?_, hwhole, hperm⟩, rfl, trivial, fun m hm => ?_⟩
    · simp only [exec, ha, hz, push_behind hnull hhead htail, Option.map_some]
    · have hne' : u ++ [t] ≠ [] := by simp
      rw [apply, first_append, first_ne_nil hne']
      exact hh.head
    · rw [apply, back_append hne]
      exact hback
    · have hm' : m ≠ z ∧ m ≠ t := by simpa [written, hz] using hm
      exact (Function.update_of_ne hm'.2 _ _).trans (Function.update_of_ne hm'.1 _ _)

theorem pop_correct (hh : Holds h l) :
    ∃ h' r, exec h .pop = some (h', r) ∧ Correct h h' l .pop r := by
  have hempty := hh.empty
  cases l with
  | nil => exact ⟨h, (.null, 0), by simp [exec, pop, hempty], hh, rfl, trivial, fun _ _ => rfl⟩
  | cons a l =>
    obtain ⟨h', heq, hh', hdet, hother⟩ := detach_spec (k := [a]) (z := a) hh rfl
    have hhead : h.head = .node a := hh.head
    refine ⟨h', (.node a, 0), ?_, hh', rfl, hdet, fun m hm => hother m ?_⟩
    · simp [exec, pop, hempty, hhead, heq]
    · exact List.ne_of_not_mem_cons hm

/-- `pop(count)` takes the nodes there are, up to `count`. -/
theorem popCount_correct (hh : Holds h l) {count : ℕ} (hpos : 1 ≤ count) :
    ∃ h' r, exec h (.popCount count) = some (h', r) ∧ Correct h h' l (.popCount count) r := by
  have hempty := hh.empty
  cases l with
  | nil =>
    refine ⟨h, (.null, count), by simp [exec, popCount, hempty], ?_, ?_, ?_, fun _ _ => rfl⟩
    · rwa [apply, List.drop_nil]
    · simp [Queue.result, Op.removed, lastOf]
    · rw [Op.removed, List.take_nil]
      trivial
  | cons a v =>
    obtain ⟨k, w, z, hsplit, hz, hlen, hloop⟩ := popLoop_spec hh.links hpos
    have hsplit' : Holds h (k ++ w) := hsplit ▸ hh
    obtain ⟨h', heq, hh', hdet, hother⟩ := detach_spec hsplit' hz
    have hhead : h.head = .node a := hh.head
    have hk : k.length = min count (a :: v).length := by rw [List.length_cons]; omega
    have htake : (a :: v).take count = k := by
      rw [List.take_eq_take_min, ← hk, hsplit, List.take_left]
    have hdrop : (a :: v).drop count = w := by
      have hwhole := List.take_append_drop count (a :: v)
      rw [htake, hsplit] at hwhole
      rw [hsplit]
      exact List.append_cancel_left hwhole
    refine ⟨h', (.node z, min count (1 + v.length)), ?_, ?_, ?_, ?_, fun m hm => hother m ?_⟩
    · simp [exec, popCount, hempty, hhead, hloop, heq]
    · rwa [apply, hdrop]
    · simp [Queue.result, Op.removed, htake, hz, lastOf, Nat.add_comm]
    · rwa [Op.removed, htake]
    · simpa [written, Op.removed, htake, hz] using hm

/-- In a state that stands for a list every operation has a value, and the right one. -/
theorem exec_correct (hh : Holds h l) {op : Op N} (hpre : Pre h l op) :
    ∃ h' r, exec h op = some (h', r) ∧ Correct h h' l op r := by
  cases op with
  | link n p => exact link_correct hh hpre
  | push chain => exact push_correct hh hpre
  | pop => exact pop_correct hh
  | popCount count => exact popCount_correct hh hpre

theorem reach_holds (hr : Reach h l) : Holds h l := by
  induction hr with
  | empty next => exact ⟨rfl, rfl, trivial, List.nodup_nil⟩
  | step _ hpre hexec ih =>
    obtain ⟨h', r, hexec', hcorrect⟩ := exec_correct ih hpre
    obtain ⟨rfl, rfl⟩ := Prod.mk.inj (Option.some.inj (hexec.symm.trans hexec'))
    exact hcorrect.holds

/-- In every state reached `head` and `tail` are both the sentinel or both nodes, the chain is the
    list, and every operation does to it what it does to the list; `tail` is reset exactly by the
    operation that leaves the list empty. -/
theorem queue_refines (hr : Reach h l) :
    ((h.head = .sentinel ∧ h.tail = .sentinel) ∨ ∃ a z, h.head = .node a ∧ h.tail = .node z) ∧
      Holds h l ∧ ∀ op : Op N, Pre h l op → ∃ h' r, exec h op = some (h', r) ∧
        Correct h h' l op r ∧ (h'.tail = .sentinel ↔ apply l op = []) := by
  have hh := reach_holds hr
  refine ⟨?_, hh, fun op hpre => ?_⟩
  · cases l with
    | nil => exact .inl ⟨hh.head_iff.mpr rfl, hh.tail_iff.mpr rfl⟩
    | cons a v =>
      refine .inr ⟨a, (a :: v).getLast (by simp), hh.head, ?_⟩
      rw [hh.tail, back_eq_node]
      exact List.getLast?_eq_some_getLast _
  · obtain ⟨h', r, hexec, hcorrect⟩ := exec_correct hh hpre
    exact ⟨h', r, hexec, hcorrect, hcorrect.holds.tail_iff⟩

/-- Two nodes, pushed as a chain. -/
def two : Heap ℕ :=
  ⟨.node 0, .node 1, Function.update (Function.update (fun _ => .null) 0 (.node 1)) 1 .sentinel⟩

theorem reach_two : Reach two [0, 1] := by
  have hlink : Pre ⟨.sentinel, .sentinel, fun _ => .null⟩ [] (Op.link 0 (.node 1)) := by simp [Pre]
  have hpush : Pre ⟨.sentinel, .sentinel, Function.update (fun _ => .null) 0 (.node 1)⟩ []
      (Op.push [0, 1]) := ⟨by simp, by simp, rfl, rfl, trivial⟩
  exact ((Reach.empty fun _ => .null).step hlink rfl).step hpush rfl

/-- Asked for five, it takes the two there are. -/
theorem queue_refines_two : ∃ h' r, exec two (.popCount 5) = some (h', r) ∧
    Correct two h' [0, 1] (.popCount 5) r ∧ (h'.tail = .sentinel ↔ [0, 1].drop 5 = []) :=
  (queue_refines reach_two).2.2 (.popCount 5) (by decide : 1 ≤ 5)

/-- On an empty queue `count` stays as it is. -/
theorem pop_empty_keeps_count : ¬ ∀ (h : Heap ℕ) (l : List ℕ), Reach h l → ∀ count, 1 ≤ count →
    ∀ h' r, exec h (.popCount count) = some (h', r) → r.2 = min count l.length := by
  intro hall
  have hcount := hall _ _ (Reach.empty fun _ => .null) 3 (by decide) _ (.null, 3) rfl
  exact absurd hcount (by decide)

end Libfibre.Queue
