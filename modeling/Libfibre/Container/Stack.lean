import Libfibre.Schemes.LinkPath

/-! `Stack` (`Container.h`): a chain of links from `head` to the sentinel. A node off the stack has a link
    that its owner may set; a chain for `push` is linked up that way, with a null link at its end.

        head ─▶ a ─▶ b ─▶ c ─▶ Sentinel        pop(2): b's link is nulled, head is c

    `pop(count)` looks for a null link to stop at, but the chain ends with the sentinel. It is right
    as long as it is asked for no more than there is; beyond, it follows the sentinel. -/

namespace Libfibre.Stack
open LinkPath

/-- A link: null, the sentinel `0xdeadbeef`, or a node. -/
inductive Ptr (N : Type) where
  | null
  | sentinel
  | node (n : N)
  deriving DecidableEq

/-- `head`, and `Next` of every node. -/
structure Heap (N : Type) where
  head : Ptr N
  next : N → Ptr N

variable {N : Type} [DecidableEq N]

/-- `Next(*p)`; there is no node at null or at the sentinel. -/
def deref (next : N → Ptr N) : Ptr N → Option (Ptr N)
  | .node n => some (next n)
  | _ => none

/-- `Next(*p) = q`. -/
def assign (h : Heap N) (p q : Ptr N) : Option (Heap N) :=
  match p with
  | .node n => some { h with next := Function.update h.next n q }
  | _ => none

/-- `push(first, last)`, with its assertion. -/
def push (h : Heap N) (first last : N) : Option (Heap N) :=
  if h.next last = .null then
    some { head := .node first, next := Function.update h.next last h.head }
  else none

/-- `head = Next(*last); Next(*last) = nullptr;` -/
def detach (h : Heap N) (last : Ptr N) : Option (Heap N) :=
  (deref h.next last).bind fun p => assign { h with head := p } last .null

/-- `pop()`. -/
def pop (h : Heap N) : Option (Heap N × Ptr N) :=
  if h.head = .sentinel then some (h, .null)
  else (detach h h.head).map fun h' => (h', h.head)

/-- The loop of `pop(count)`. -/
def popLoop (next : N → Ptr N) (i count : ℕ) (last : Ptr N) : Option (Ptr N × ℕ) :=
  if i < count then
    (deref next last).bind fun p =>
      if p = .null then popLoop next (i + 1) i last else popLoop next (i + 1) count p
  else some (last, count)
termination_by count - i

/-- `pop(count)`: what it returns, and `count` as it leaves it. -/
def popCount (h : Heap N) (count : ℕ) : Option (Heap N × Ptr N × ℕ) :=
  if h.head = .sentinel then some (h, .null, count)
  else (popLoop h.next 1 count h.head).bind fun (last, count) =>
    (detach h last).map fun h' => (h', last, count)

/-! ### The list that a stack is -/

/-- From `head` the links go through the list to the sentinel. -/
structure Holds (h : Heap N) (l : List N) : Prop where
  head : h.head = first .node l .sentinel
  links : Links .node h.next l .sentinel
  nodup : l.Nodup

/-- What is done to a stack; `link` is an owner setting the link of a node off the stack. -/
inductive Op (N : Type) where
  | link (n : N) (p : Ptr N)
  | push (chain : List N)
  | pop
  | popCount (count : ℕ)

/-- What a caller has to see to. -/
def Op.Pre (h : Heap N) (l : List N) : Op N → Prop
  | .link n _ => n ∉ l
  | .push chain => chain ≠ [] ∧ (chain ++ l).Nodup ∧ Links .node h.next chain .null
  | .pop => True
  | .popCount count => 1 ≤ count

/-- An operation, with what it returns and `count` as it leaves it. -/
def Op.exec (h : Heap N) : Op N → Option (Heap N × Ptr N × ℕ)
  | .link n p => some ({ h with next := Function.update h.next n p }, .null, 0)
  | .push chain =>
    match chain.head?, chain.getLast? with
    | some a, some z => (Stack.push h a z).map fun h' => (h', .null, 0)
    | _, _ => none
  | .pop => (Stack.pop h).map fun r => (r.1, r.2, 0)
  | .popCount count => Stack.popCount h count

/-- The nodes that leave. -/
def Op.removed (l : List N) : Op N → List N
  | .link _ _ | .push _ => []
  | .pop => l.take 1
  | .popCount count => l.take count

/-- The list afterwards. -/
def Op.apply (l : List N) : Op N → List N
  | .link _ _ => l
  | .push chain => chain ++ l
  | .pop => l.drop 1
  | .popCount count => l.drop count

/-- The last of the nodes that leave, or null. -/
def lastOf (k : List N) : Ptr N := (k.getLast?.map .node).getD .null

/-- What is returned: the last node that leaves, and for `pop(count)` how many have left. -/
def Op.result (l : List N) (op : Op N) : Ptr N × ℕ :=
  match op with
  | .popCount _ => (lastOf (op.removed l), (op.removed l).length)
  | _ => (lastOf (op.removed l), 0)

/-- The one node whose link is written. -/
def Op.written (l : List N) : Op N → Option N
  | .link n _ => some n
  | .push chain => chain.getLast?
  | op => (op.removed l).getLast?

/-- An operation does to the stack what it does to the list, and to nothing else. -/
structure Correct (h h' : Heap N) (l : List N) (op : Op N) (r : Ptr N × ℕ) : Prop where
  holds : Holds h' (op.apply l)
  result : r = op.result l
  /-- The nodes that leave keep their order, with a null link at the end. -/
  detached : Links .node h'.next (op.removed l) .null
  others : ∀ n, some n ≠ op.written l → h'.next n = h.next n

/-- `pop(count)` is asked for no more than there is. -/
def Op.Within (l : List N) : Op N → Prop
  | .popCount count => count ≤ l.length
  | _ => True

/-- The runs from an empty stack, over any memory, whose steps all meet `W`. -/
inductive Reach (W : List N → Op N → Prop) : Heap N → List N → Prop where
  | empty (next : N → Ptr N) : Reach W ⟨.sentinel, next⟩ []
  | step {h h' : Heap N} {l : List N} {op : Op N} {r : Ptr N × ℕ} (before : Reach W h l)
      (pre : op.Pre h l) (meets : W l op) (exec : op.exec h = some (h', r)) :
      Reach W h' (op.apply l)

/-! ### The operations -/

variable {h : Heap N} {l : List N}

omit [DecidableEq N] in
theorem Holds.nil_iff (hh : Holds h l) : h.head = .sentinel ↔ l = [] := by
  rw [hh.head]
  cases l <;> simp

/-- The first `k` nodes are taken off behind the last of them. -/
theorem detach_spec {k : List N} {z : N} (hh : Holds h (k ++ l)) (hz : k.getLast? = some z) :
    ∃ h', detach h (.node z) = some h' ∧ Holds h' l ∧ Links .node h'.next k .null ∧
      ∀ n ≠ z, h'.next n = h.next n := by
  have hend := (Links.append_iff.mp hh.links).1.last hz
  obtain ⟨hk, hl⟩ := hh.links.detach (r := .null) hh.nodup hz
  refine ⟨_, rfl, ⟨hend, hl, (List.nodup_append.mp hh.nodup).2.1⟩, hk, fun n hn => ?_⟩
  exact Function.update_of_ne hn _ _

/-- While there is a node behind the current one, the loop goes on to it. -/
theorem popLoop_spec {next : N → Ptr N} {i count : ℕ} {a : N} {v : List N}
    (hlinks : Links .node next (a :: v) .sentinel) (hle : count ≤ i + v.length) (hi : i ≤ count) :
    ∃ k w z, a :: v = k ++ w ∧ k.getLast? = some z ∧ k.length + i = count + 1 ∧
      popLoop next i count (.node a) = some (.node z, count) := by
  induction v generalizing i a with
  | nil =>
    have heq : i = count := by simp only [List.length_nil] at hle; omega
    exact ⟨[a], [], a, rfl, rfl, by simp [heq, Nat.add_comm], by rw [popLoop, if_neg (by omega)]⟩
  | cons b v ih =>
    rcases Nat.eq_or_lt_of_le hi with rfl | hlt
    · exact ⟨[a], b :: v, a, rfl, rfl, by simp [Nat.add_comm], by rw [popLoop, if_neg (by omega)]⟩
    · rw [List.length_cons] at hle
      obtain ⟨k, w, z, hsplit, hz, hlen, hloop⟩ := ih hlinks.2 (i := i + 1) (by omega) hlt
      refine ⟨a :: k, w, z, by rw [hsplit, List.cons_append], ?_, ?_, ?_⟩
      · rw [List.getLast?_cons, hz, Option.getD_some]
      · rw [List.length_cons]; omega
      · rw [popLoop, if_pos hlt, deref, Option.bind_some, hlinks.1, first_cons,
          if_neg (by simp), hloop]

/-- Asked for more, the loop follows the sentinel or ends on it. -/
theorem popLoop_beyond {next : N → Ptr N} {i count : ℕ} {a : N} {v : List N}
    (hlinks : Links .node next (a :: v) .sentinel) (hlt : i + v.length < count) {r : Ptr N × ℕ}
    (hr : popLoop next i count (.node a) = some r) : r.1 = .sentinel := by
  induction v generalizing i a with
  | nil =>
    rw [popLoop, if_pos (by omega), deref, Option.bind_some, hlinks.1, first_nil,
      if_neg (by simp), popLoop] at hr
    split at hr
    case isTrue => exact absurd hr (by simp [deref])
    case isFalse =>
      obtain rfl := Option.some.inj hr
      rfl
  | cons b v ih =>
    rw [List.length_cons] at hlt
    rw [popLoop, if_pos (by omega), deref, Option.bind_some, hlinks.1, first_cons,
      if_neg (by simp)] at hr
    exact ih hlinks.2 (by omega) hr

omit [DecidableEq N] in
theorem head_node {a : N} (hh : Holds h (a :: l)) : h.head = .node a := hh.head

theorem pop_node {a : N} (hhead : h.head = .node a) :
    Op.exec h .pop = (detach h (.node a)).map fun h' => (h', .node a, 0) := by
  rw [Op.exec, pop, hhead, if_neg (by simp), Option.map_map]
  rfl

theorem popCount_node {a : N} (hhead : h.head = .node a) (count : ℕ) :
    Op.exec h (.popCount count) = (popLoop h.next 1 count (.node a)).bind fun r =>
      (detach h r.1).map fun h' => (h', r.1, r.2) := by
  rw [Op.exec, popCount, hhead, if_neg (by simp)]

theorem link_correct (hh : Holds h l) {n : N} {p : Ptr N} (hn : n ∉ l) :
    ∃ h' r, Op.exec h (.link n p) = some (h', r) ∧ Correct h h' l (.link n p) r := by
  refine ⟨_, _, rfl, ⟨hh.head, hh.links.other hn, hh.nodup⟩, rfl, trivial, fun m hm => ?_⟩
  exact Function.update_of_ne (fun heq => hm (congrArg some heq)) _ _

theorem push_correct (hh : Holds h l) {chain : List N} (hpre : (Op.push chain).Pre h l) :
    ∃ h' r, Op.exec h (.push chain) = some (h', r) ∧ Correct h h' l (.push chain) r := by
  obtain ⟨hne, hnodup, hlinks⟩ := hpre
  obtain ⟨a, ha⟩ : ∃ a, chain.head? = some a := ⟨_, List.head?_eq_some_head hne⟩
  obtain ⟨z, hz⟩ : ∃ z, chain.getLast? = some z := ⟨_, List.getLast?_eq_some_getLast hne⟩
  have hzc : z ∈ chain := List.mem_of_getLast? hz
  have hsplit := List.nodup_append.mp hnodup
  have hzl : z ∉ l := fun hm => hsplit.2.2 z hzc z hm rfl
  refine ⟨⟨.node a, Function.update h.next z h.head⟩, (.null, 0), ?_, ⟨?_, ?_, hnodup⟩, rfl, trivial,
    fun m hm => ?_⟩
  · simp only [Op.exec, ha, hz, push, if_pos (hlinks.last hz), Option.map_some]
  · cases chain with
    | nil => exact absurd rfl hne
    | cons b chain =>
      obtain rfl := Option.some.inj ha
      rfl
  · rw [Op.apply, Links.append_iff, ← hh.head]
    exact ⟨hlinks.retarget hsplit.1 hz, hh.links.other hzl⟩
  · refine Function.update_of_ne (fun heq => hm ?_) _ _
    rw [heq]
    exact hz.symm

theorem pop_correct (hh : Holds h l) :
    ∃ h' r, Op.exec h .pop = some (h', r) ∧ Correct h h' l .pop r := by
  cases l with
  | nil =>
    have hempty := hh.nil_iff.mpr rfl
    exact ⟨h, (.null, 0), by simp only [Op.exec, pop, if_pos hempty, Option.map_some], hh, rfl,
      trivial, fun _ _ => rfl⟩
  | cons a l =>
    obtain ⟨h', heq, hh', hdet, hother⟩ := detach_spec (k := [a]) (z := a) hh rfl
    refine ⟨h', (.node a, 0), ?_, hh', rfl, hdet, fun m hm => hother m ?_⟩
    · rw [pop_node (head_node hh), heq, Option.map_some]
    · exact fun heq => hm (congrArg some heq)

/-- `pop(count)` is right exactly when there are that many. -/
theorem popCount_iff (hh : Holds h l) {count : ℕ} (hpos : 1 ≤ count) :
    (∃ h' r, Op.exec h (.popCount count) = some (h', r) ∧ Correct h h' l (.popCount count) r) ↔
      count ≤ l.length := by
  constructor
  · rintro ⟨h', r, heq, hcorrect⟩
    by_contra hlt
    cases l with
    | nil =>
      -- on an empty stack `count` stays as it is
      have hempty := hh.nil_iff.mpr rfl
      simp only [Op.exec, popCount, if_pos hempty, Option.some.injEq, Prod.mk.injEq] at heq
      have hres := hcorrect.result
      rw [← heq.2] at hres
      have hcount : count = 0 := by simpa [Op.result, Op.removed] using congrArg Prod.snd hres
      omega
    | cons a v =>
      rw [List.length_cons] at hlt
      rw [popCount_node (head_node hh), Option.bind_eq_some_iff] at heq
      obtain ⟨⟨last, c⟩, hloop, hdet⟩ := heq
      have hlast : last = .sentinel := popLoop_beyond hh.links (by omega) hloop
      subst hlast
      exact absurd hdet (by simp [detach, deref])
  · intro hle
    cases l with
    | nil => exact absurd hle (by simp only [List.length_nil]; omega)
    | cons a v =>
      rw [List.length_cons] at hle
      obtain ⟨k, w, z, hsplit, hz, hlen, hloop⟩ :=
        popLoop_spec hh.links (i := 1) (by omega) hpos
      have hsplit' : Holds h (k ++ w) := hsplit ▸ hh
      obtain ⟨h', heq, hh', hdet, hother⟩ := detach_spec hsplit' hz
      have hk : k.length = count := by omega
      have htake : (a :: v).take count = k := by rw [hsplit, ← hk, List.take_left]
      have hdrop : (a :: v).drop count = w := by rw [hsplit, ← hk, List.drop_left]
      refine ⟨h', (.node z, count), ?_, ?_, ?_, ?_, fun m hm => hother m fun hmz => hm ?_⟩
      · rw [popCount_node (head_node hh), hloop, Option.bind_some, heq, Option.map_some]
      · rwa [Op.apply, hdrop]
      · simp [Op.result, Op.removed, htake, hz, lastOf, hk]
      · rwa [Op.removed, htake]
      · simp only [Op.written, Op.removed, htake, hz, hmz]

/-- In a state that stands for a list every operation is right exactly within its bounds. -/
theorem correct_iff (hh : Holds h l) {op : Op N} (hpre : op.Pre h l) :
    (∃ h' r, op.exec h = some (h', r) ∧ Correct h h' l op r) ↔ op.Within l := by
  cases op with
  | link n p => exact iff_of_true (link_correct hh hpre) trivial
  | push chain => exact iff_of_true (push_correct hh hpre) trivial
  | pop => exact iff_of_true (pop_correct hh) trivial
  | popCount count => exact popCount_iff hh hpre

theorem reach_holds (hr : Reach Op.Within h l) : Holds h l := by
  induction hr with
  | empty next => exact ⟨rfl, trivial, List.nodup_nil⟩
  | step _ hpre hwithin hexec ih =>
    obtain ⟨h', r, hexec', hcorrect⟩ := (correct_iff ih hpre).mpr hwithin
    obtain ⟨rfl, rfl⟩ := Prod.mk.inj (Option.some.inj (hexec.symm.trans hexec'))
    exact hcorrect.holds

/-- In every run whose `pop(count)` stay within the size, each state is the list, and the next
    operation is right exactly if it stays within the size. -/
theorem stack_refines (hr : Reach Op.Within h l) :
    Holds h l ∧ ∀ op : Op N, op.Pre h l →
      ((∃ h' r, op.exec h = some (h', r) ∧ Correct h h' l op r) ↔ op.Within l) :=
  ⟨reach_holds hr, fun _ hpre => correct_iff (reach_holds hr) hpre⟩

/-- One node, pushed on an empty stack. -/
def one : Heap ℕ := ⟨.node 0, Function.update (fun _ => .null) 0 .sentinel⟩

theorem reach_one {W : List ℕ → Op ℕ → Prop} (hW : W [] (.push [0])) : Reach W one [0] := by
  have hpre : (Op.push [0]).Pre ⟨.sentinel, fun _ => .null⟩ [] :=
    ⟨by simp, by simp, rfl, trivial⟩
  exact (Reach.empty fun _ => .null).step hpre hW rfl

/-- Three nodes, pushed as a chain on an empty stack. -/
theorem reach_three : ∃ h : Heap ℕ, Reach Op.Within h [0, 1, 2] := by
  let next : ℕ → Ptr ℕ := fun n => if n = 0 then .node 1 else if n = 1 then .node 2 else .null
  have hpush : (Op.push [0, 1, 2]).Pre ⟨.sentinel, next⟩ [] :=
    ⟨by simp, by decide, rfl, rfl, rfl, trivial⟩
  exact ⟨_, (Reach.empty next).step hpush trivial rfl⟩

/-- `pop(2)` of three nodes. -/
theorem stack_refines_three : ∃ h h' : Heap ℕ, Holds h [0, 1, 2] ∧
    Op.exec h (.popCount 2) = some (h', .node 1, 2) ∧
    Correct h h' [0, 1, 2] (.popCount 2) (.node 1, 2) ∧ h'.head = .node 2 := by
  obtain ⟨h, hr⟩ := reach_three
  have hpre : (Op.popCount 2).Pre h [0, 1, 2] := (by decide : 1 ≤ 2)
  obtain ⟨h', r, hexec, hcorrect⟩ := ((stack_refines hr).2 _ hpre).mpr (by decide : 2 ≤ 3)
  obtain rfl : r = (.node 1, 2) := hcorrect.result
  exact ⟨h, h', (stack_refines hr).1, hexec, hcorrect, hcorrect.holds.head⟩

/-- `pop(2)` of a single node goes on to the sentinel. -/
theorem pop_follows_sentinel : ¬ ∀ (h : Heap ℕ) (l : List ℕ), Reach (fun _ _ => True) h l →
    ∀ op : Op ℕ, op.Pre h l → ∃ h' r, op.exec h = some (h', r) ∧ Correct h h' l op r := by
  intro hall
  have hholds : Holds one [0] := reach_holds (reach_one trivial)
  have hpre : (Op.popCount 2).Pre one [0] := (by decide : 1 ≤ 2)
  have hle := (correct_iff hholds hpre).mp (hall one [0] (reach_one trivial) _ hpre)
  exact absurd hle (by decide : ¬ 2 ≤ [0].length)

end Libfibre.Stack
