import Libfibre.Container.Ring
import Mathlib.Data.List.TakeWhile

/-! `List` (`Container.h`): a ring through an anchor. The list is what `Next` runs through from the anchor
    back to it; `Prev` runs through its reverse. Every operation works on one place of the list, in
    front of `v` and behind `u`, with the anchor for a neighbour where they are empty:

        anchor ◀─▶ u ··· u ◀─▶ [ put in, or taken out ] ◀─▶ v ··· v ◀─▶ anchor -/

namespace Libfibre.IntrusiveList
open LinkPath Libfibre.Ring

variable {N : Type}

section Model
variable [DecidableEq N]

/-- `empty()`, with its assertion. -/
def empty (h : Heap N) (anchor : N) : Option Bool :=
  let front := decide (h.next anchor = some anchor)
  let back := decide (h.prev anchor = some anchor)
  if front = back then some front else none

/-- `push_front`: in front of the first, or of the anchor itself. -/
def pushFront (h : Heap N) (anchor elem : N) : Option (Heap N) :=
  (h.next anchor).bind fun front => insertBefore h front elem elem

/-- `push_back`: behind the last, or behind the anchor itself. -/
def pushBack (h : Heap N) (anchor elem : N) : Option (Heap N) :=
  (h.prev anchor).bind fun back => insertAfter h back elem elem

/-- `splice_back` of a chain that is linked up already. -/
def spliceBack (h : Heap N) (anchor first last : N) : Option (Heap N) :=
  (h.prev anchor).bind fun back => insertAfter h back first last

/-- The loop of `remove(first, count)`. -/
def removeLoop (h : Heap N) (anchor : N) (i count : ℕ) (last : Option N) : Option (Option N × ℕ) :=
  if i < count then
    last.bind fun n =>
      if h.next n = some anchor then removeLoop h anchor (i + 1) i last
      else removeLoop h anchor (i + 1) count (h.next n)
  else some (last, count)
termination_by count - i

/-- `remove(first, count)`: what it returns, and `count` as it leaves it. -/
def removeCount (h : Heap N) (anchor first : N) (count : ℕ) : Option (Heap N × N × ℕ) := do
  guard (linked h first)
  let (last, count) ← removeLoop h anchor 1 count (some first)
  let last ← last
  return (← remove h first last, last, count)

/-- `pop_front`, of a list that is not empty. -/
def popFront (h : Heap N) (anchor : N) : Option (Heap N × N) := do
  guard (!(← empty h anchor))
  let front ← h.next anchor
  return (← remove h front front, front)

/-- `pop_back`, of a list that is not empty. -/
def popBack (h : Heap N) (anchor : N) : Option (Heap N × N) := do
  guard (!(← empty h anchor))
  let back ← h.prev anchor
  return (← remove h back back, back)

end Model

/-! ### The list that a ring is -/

/-- The ring through `a` is the list `l`, both ways. -/
structure Holds (h : Heap N) (a : N) (l : List N) : Prop where
  forth : Links some h.next (a :: l) (some a)
  back : Links some h.prev (a :: l.reverse) (some a)
  nodup : (a :: l).Nodup

/-- A detached chain: linked up both ways, with null links outside. -/
structure Chain (h : Heap N) (c : List N) : Prop where
  forth : Links some h.next c none
  back : Links some h.prev c.reverse none

/-- The node in front of a place of the list, and the one behind it. -/
def before (a : N) (u : List N) : N := u.getLast?.getD a
def behind (a : N) (v : List N) : N := v.head?.getD a

/-- New nodes, not on the list. -/
structure Fresh (h : Heap N) (a : N) (l c : List N) : Prop where
  ne_nil : c ≠ []
  nodup : (a :: l ++ c).Nodup
  chain : Chain h c

/-! ### One place of a list -/

variable {h : Heap N} {a f z : N} {u v c l : List N}

theorem first_eq (v : List N) : first some v (some a) = some (behind a v) := by
  cases v <;> rfl

theorem first_reverse (u : List N) : first some u.reverse (some a) = some (before a u) := by
  rw [first_eq, behind, List.head?_reverse, before]

theorem last_before (a : N) (u : List N) : (a :: u).getLast? = some (before a u) :=
  List.getLast?_cons

theorem last_behind (a : N) (v : List N) : (a :: v.reverse).getLast? = some (behind a v) := by
  rw [List.getLast?_cons, List.getLast?_reverse, behind]

theorem reverse_append (a : N) (u v : List N) :
    a :: (u ++ v).reverse = (a :: v.reverse) ++ u.reverse := by
  rw [List.reverse_append, List.cons_append]

/-- The two neighbours of a place are linked to each other. -/
theorem Holds.at_place (hh : Holds h a (u ++ v)) :
    h.next (before a u) = some (behind a v) ∧ h.prev (behind a v) = some (before a u) := by
  have hforth := hh.forth
  have hback := hh.back
  rw [← List.cons_append] at hforth
  rw [reverse_append] at hback
  obtain ⟨hu, -⟩ := Links.append_iff.mp hforth
  obtain ⟨hv, -⟩ := Links.append_iff.mp hback
  rw [first_eq] at hu
  rw [first_reverse] at hv
  exact ⟨hu.last (last_before a u), hv.last (last_behind a v)⟩

theorem exists_place {n : N} (hn : n ∈ a :: l) : ∃ u v, l = u ++ v ∧ before a u = n := by
  rcases List.mem_cons.mp hn with rfl | hn
  · exact ⟨[], l, rfl, rfl⟩
  · obtain ⟨u, v, rfl⟩ := List.append_of_mem hn
    exact ⟨u ++ [n], v, by simp, by simp [before]⟩

theorem exists_place' {n : N} (hn : n ∈ a :: l) : ∃ u v, l = u ++ v ∧ behind a v = n := by
  rcases List.mem_cons.mp hn with rfl | hn
  · exact ⟨l, [], by simp, rfl⟩
  · obtain ⟨u, v, rfl⟩ := List.append_of_mem hn
    exact ⟨u, n :: v, rfl, rfl⟩

/-- `Prev` undoes `Next`, and the other way round. -/
theorem Holds.mutual (hh : Holds h a l) {n : N} (hn : n ∈ a :: l) :
    (∃ m, h.next n = some m ∧ h.prev m = some n) ∧ ∃ m, h.prev n = some m ∧ h.next m = some n := by
  constructor
  · obtain ⟨u, v, rfl, rfl⟩ := exists_place hn
    exact ⟨_, hh.at_place⟩
  · obtain ⟨u, v, rfl, rfl⟩ := exists_place' hn
    exact ⟨_, hh.at_place.2, hh.at_place.1⟩

theorem Holds.linked (hh : Holds h a l) {n : N} (hn : n ∈ a :: l) :
    (h.next n).isSome ∧ (h.prev n).isSome := by
  obtain ⟨⟨m, hm, -⟩, m', hm', -⟩ := hh.mutual hn
  rw [hm, hm']
  exact ⟨rfl, rfl⟩

theorem before_mem (a : N) (u v : List N) : before a u ∈ a :: (u ++ v) := by
  rw [← List.cons_append]
  exact List.mem_append_left v (List.mem_of_getLast? (last_before a u))

theorem behind_mem (a : N) (u v : List N) : behind a v ∈ a :: (u ++ v) := by
  cases v with
  | nil => exact List.mem_cons_self
  | cons x v => exact List.mem_cons_of_mem a (List.mem_append_right u List.mem_cons_self)

theorem reverse_split (a : N) (u c v : List N) :
    a :: (u ++ c ++ v).reverse = (a :: v.reverse) ++ c.reverse ++ u.reverse := by simp

theorem nodup_back (h : ((a :: u) ++ c ++ v).Nodup) :
    ((a :: v.reverse) ++ c.reverse ++ u.reverse).Nodup := by
  rw [← reverse_split]
  exact (List.Perm.nodup_iff (List.Perm.cons a (List.reverse_perm _))).mpr h

theorem Fresh.outer (hc : Fresh h a l c) (hf : c.head? = some f) (hz : c.getLast? = some z) :
    h.prev f = none ∧ h.next z = none :=
  ⟨hc.chain.back.last (by rw [List.getLast?_reverse, hf]), hc.chain.forth.last hz⟩

/-- Apply a function of its first and its last node to a chain. -/
def ends {α : Type} (chain : List N) (f : N → N → Option α) : Option α :=
  chain.head?.bind fun first => chain.getLast?.bind fun last => f first last

theorem ends_eq {α : Type} (hf : c.head? = some f) (hz : c.getLast? = some z)
    (k : N → N → Option α) : ends c k = k f z := by
  rw [ends, hf, Option.bind_some, hz, Option.bind_some]

/-- The first and the last node of a chain. -/
theorem exists_ends (hc : c ≠ []) : ∃ f z, c.head? = some f ∧ c.getLast? = some z :=
  ⟨_, _, List.head?_eq_some_head hc, List.getLast?_eq_some_getLast hc⟩

/-! ### The operations -/

variable [DecidableEq N]

/-- What is done to a list; `link` is an owner setting the links of a node off the list. -/
inductive Op (N : Type) where
  | link (n : N) (next prev : Option N)
  | pushFront (elem : N)
  | pushBack (elem : N)
  | spliceBack (chain : List N)
  | insertBefore (next : N) (chain : List N)
  | insertAfter (prev : N) (chain : List N)
  | remove (elem : N)
  | removeCount (first : N) (count : ℕ)
  | popFront
  | popBack

/-- An operation, with the pointer it returns and `count` as it leaves it. -/
def Op.exec (h : Heap N) (a : N) : Op N → Option (Heap N × Option N × ℕ)
  | .link n nx pv => some ((h.setNext n nx).setPrev n pv, none, 0)
  | .pushFront e => (IntrusiveList.pushFront h a e).map (·, none, 0)
  | .pushBack e => (IntrusiveList.pushBack h a e).map (·, none, 0)
  | .spliceBack c => (ends c (IntrusiveList.spliceBack h a)).map (·, none, 0)
  | .insertBefore x c => (ends c (Ring.insertBefore h x)).map (·, none, 0)
  | .insertAfter p c => (ends c (Ring.insertAfter h p)).map (·, none, 0)
  | .remove e => (Ring.remove h e e).map (·, some e, 0)
  | .removeCount e n => (IntrusiveList.removeCount h a e n).map fun r => (r.1, some r.2.1, r.2.2)
  | .popFront => (IntrusiveList.popFront h a).map fun r => (r.1, some r.2, 0)
  | .popBack => (IntrusiveList.popBack h a).map fun r => (r.1, some r.2, 0)

/-- The list around a node. -/
def upTo (x : N) (l : List N) : List N := l.takeWhile (· ≠ x)
def from_ (x : N) (l : List N) : List N := l.dropWhile (· ≠ x)

/-- The place that an operation works on: what is in front, what comes or goes, what is behind. -/
def Op.place (a : N) (l : List N) : Op N → List N × List N × List N
  | .link _ _ _ => (l, [], [])
  | .pushFront e => ([], [e], l)
  | .pushBack e => (l, [e], [])
  | .spliceBack c => (l, c, [])
  | .insertBefore x c => (upTo x l, c, from_ x l)
  | .insertAfter p c => if p = a then ([], c, l) else (upTo p l ++ [p], c, (from_ p l).drop 1)
  | .remove e => (upTo e l, [e], (from_ e l).drop 1)
  | .removeCount e n => (upTo e l, (from_ e l).take n, (from_ e l).drop n)
  | .popFront => ([], l.take 1, l.drop 1)
  | .popBack => (l.dropLast, l.getLast?.toList, [])

/-- Does it take nodes out? -/
def Op.takes : Op N → Bool
  | .remove _ | .removeCount _ _ | .popFront | .popBack => true
  | _ => false

/-- The nodes that leave. -/
def Op.removed (a : N) (l : List N) (op : Op N) : List N :=
  if op.takes then (op.place a l).2.1 else []

/-- The list afterwards. -/
def Op.apply (a : N) (l : List N) (op : Op N) : List N :=
  let (u, c, v) := op.place a l
  if op.takes then u ++ v else u ++ c ++ v

/-- What is returned: the last node that leaves, and for `remove(first, count)` how many leave. -/
def Op.result (a : N) (l : List N) (op : Op N) : Option N × ℕ :=
  match op with
  | .removeCount _ _ => ((op.removed a l).getLast?, (op.removed a l).length)
  | _ => ((op.removed a l).getLast?, 0)

/-- The nodes whose `Next` is written: the one in front of the place and the last that comes or goes. -/
def Op.nexts (a : N) (l : List N) (op : Op N) : List N :=
  match op with
  | .link n _ _ => [n]
  | op => let (u, c, _) := op.place a l; before a u :: c.getLast?.toList

/-- The nodes whose `Prev` is written. -/
def Op.prevs (a : N) (l : List N) (op : Op N) : List N :=
  match op with
  | .link n _ _ => [n]
  | op => let (_, c, v) := op.place a l; behind a v :: c.head?.toList

/-- What a caller has to see to. -/
def Op.Pre (h : Heap N) (a : N) (l : List N) : Op N → Prop
  | .link n _ _ => n ∉ a :: l
  | .pushFront e | .pushBack e => Fresh h a l [e]
  | .spliceBack c => Fresh h a l c
  | .insertBefore x c | .insertAfter x c => x ∈ a :: l ∧ Fresh h a l c
  | .remove e => e ∈ l
  | .removeCount e n => e ∈ l ∧ 1 ≤ n
  | .popFront | .popBack => l ≠ []

/-- An operation does to the ring what it does to the list, and writes no other links. -/
structure Correct (h h' : Heap N) (a : N) (l : List N) (op : Op N) (r : Option N × ℕ) : Prop where
  holds : Holds h' a (op.apply a l)
  result : r = op.result a l
  detached : Chain h' (op.removed a l)
  nexts : ∀ n ∉ op.nexts a l, h'.next n = h.next n
  prevs : ∀ n ∉ op.prevs a l, h'.prev n = h.prev n

/-- The runs from a new list, over any memory. -/
inductive Reach (a : N) : Heap N → List N → Prop where
  | new (h : Heap N) : Reach a ((h.setPrev a a).setNext a a) []
  | step {h h' : Heap N} {l : List N} {op : Op N} {r : Option N × ℕ} (before : Reach a h l)
      (pre : op.Pre h a l) (exec : op.exec h a = some (h', r)) : Reach a h' (op.apply a l)

/-! ### Putting in and taking out -/

/-- The four writes of an insertion put a chain in at a place. -/
theorem splice_holds (hh : Holds h a (u ++ v)) (hc : Fresh h a (u ++ v) c) (hf : c.head? = some f)
    (hz : c.getLast? = some z) :
    Holds (splice h (before a u) (behind a v) f z) a (u ++ c ++ v) := by
  have hforth := hh.forth
  have hback := hh.back
  rw [← List.cons_append] at hforth
  rw [reverse_append] at hback
  have hnodup : ((a :: u) ++ c ++ v).Nodup := by
    refine (List.Perm.nodup_iff ?_).mp hc.nodup
    rw [← List.cons_append, List.append_assoc, List.append_assoc]
    exact List.Perm.append_left _ List.perm_append_comm
  have hf' : c.reverse.getLast? = some f := by rw [List.getLast?_reverse, hf]
  have hfirst : first some c none = some f := by
    cases c with
    | nil => exact absurd hf (by simp)
    | cons b c => exact hf
  have hlast : first some c.reverse none = some z := by
    rw [← hz, ← List.head?_reverse]
    cases c.reverse <;> rfl
  have h1 := hforth.insert hc.chain.forth hnodup (last_before a u) hz
  have h2 := hback.insert hc.chain.back (nodup_back hnodup) (last_behind a v) hf'
  rw [first_eq, hfirst] at h1
  rw [first_reverse, hlast] at h2
  refine ⟨h1, ?_, hnodup⟩
  rw [reverse_split]
  exact h2

/-- `remove` takes a part of the list out. -/
theorem unsplice_holds (hh : Holds h a (u ++ c ++ v)) (hf : c.head? = some f)
    (hz : c.getLast? = some z) :
    Holds (unsplice h (before a u) (behind a v) f z) a (u ++ v) ∧
      Chain (unsplice h (before a u) (behind a v) f z) c := by
  have hforth := hh.forth
  have hback := hh.back
  have hnodup : ((a :: u) ++ c ++ v).Nodup := hh.nodup
  rw [reverse_split] at hback
  have hf' : c.reverse.getLast? = some f := by rw [List.getLast?_reverse, hf]
  have h1 := hforth.cut (r := none) hnodup (last_before a u) hz
  have h2 := hback.cut (r := none) (nodup_back hnodup) (last_behind a v) hf'
  rw [first_eq] at h1
  rw [first_reverse] at h2
  refine ⟨⟨h1.1, ?_, ?_⟩, h1.2, h2.2⟩
  · rw [reverse_append]
    exact h2.1
  · refine List.Nodup.sublist ?_ hnodup
    rw [← List.cons_append, List.append_assoc]
    exact List.Sublist.append_left (List.sublist_append_right c v) _

theorem insertBefore_place (hh : Holds h a (u ++ v)) (hc : Fresh h a (u ++ v) c)
    (hf : c.head? = some f) (hz : c.getLast? = some z) :
    insertBefore h (behind a v) f z = some (splice h (before a u) (behind a v) f z) :=
  insertBefore_eq hh.at_place.2 (hh.linked (behind_mem a u v)).1 (hc.outer hf hz).1
    (hc.outer hf hz).2

theorem insertAfter_place (hh : Holds h a (u ++ v)) (hc : Fresh h a (u ++ v) c)
    (hf : c.head? = some f) (hz : c.getLast? = some z) :
    insertAfter h (before a u) f z = some (splice h (before a u) (behind a v) f z) :=
  insertAfter_eq hh.at_place.1 (hh.linked (before_mem a u v)).2 (hc.outer hf hz).1
    (hc.outer hf hz).2

theorem remove_place (hh : Holds h a (u ++ c ++ v)) (hf : c.head? = some f)
    (hz : c.getLast? = some z) :
    remove h f z = some (unsplice h (before a u) (behind a v) f z) := by
  have hfm : f ∈ a :: (u ++ c ++ v) :=
    List.mem_cons_of_mem a (List.mem_append_left v
      (List.mem_append_right u (List.mem_of_head? hf)))
  have hzc : z ∈ c := List.mem_of_getLast? hz
  have hzm : z ∈ a :: (u ++ c ++ v) :=
    List.mem_cons_of_mem a (List.mem_append_left v (List.mem_append_right u hzc))
  have hprev : h.prev f = some (before a u) := by
    have hplace := (List.append_assoc u c v ▸ hh : Holds h a (u ++ (c ++ v))).at_place.2
    have hb : behind a (c ++ v) = f := by
      cases c with
      | nil => exact absurd hf (by simp)
      | cons b c => exact Option.some.inj hf
    rwa [hb] at hplace
  have hnext : h.next z = some (behind a v) := by
    have hplace := hh.at_place.1
    have hb : before a (u ++ c) = z := by rw [before, List.getLast?_append, hz]; rfl
    rwa [hb] at hplace
  have hne : z ≠ before a u := by
    have hnodup : ((a :: u) ++ c ++ v).Nodup := hh.nodup
    have hdisj := (List.nodup_append.mp (List.nodup_append.mp hnodup).1).2.2
    exact fun heq => hdisj z (heq ▸ List.mem_of_getLast? (last_before a u)) z hzc rfl
  exact remove_eq hprev hnext (hh.linked hfm).1 (hh.linked hzm).2 hne

/-! ### Every operation -/

theorem result_put {op : Op N} (htakes : op.takes = false) : op.result a l = (none, 0) := by
  cases op <;> first | rfl | exact absurd htakes (by simp [Op.takes])

theorem written_eq {op : Op N} (hplace : op.place a l = (u, c, v))
    (hlink : ∀ n p q, op ≠ .link n p q) :
    op.nexts a l = before a u :: c.getLast?.toList ∧
      op.prevs a l = behind a v :: c.head?.toList := by
  cases op with
  | link n p q => exact absurd rfl (hlink n p q)
  | _ => simp only [Op.nexts, Op.prevs, hplace, and_self]

theorem put_correct {op : Op N} (hh : Holds h a l) (hl : l = u ++ v) (hc : Fresh h a l c)
    (hf : c.head? = some f) (hz : c.getLast? = some z) (hplace : op.place a l = (u, c, v))
    (htakes : op.takes = false) (hlink : ∀ n p q, op ≠ .link n p q) :
    Correct h (splice h (before a u) (behind a v) f z) a l op (none, 0) := by
  have hremoved : op.removed a l = [] := by rw [Op.removed, htakes]; rfl
  obtain ⟨hnexts, hprevs⟩ := written_eq hplace hlink
  refine ⟨?_, (result_put htakes).symm, ?_, fun n hn => ?_, fun n hn => ?_⟩
  · have happly : op.apply a l = u ++ c ++ v := by
      simp only [Op.apply, hplace, htakes, Bool.false_eq_true, if_false]
    rw [happly]
    subst hl
    exact splice_holds hh hc hf hz
  · rw [hremoved]
    exact ⟨trivial, trivial⟩
  · rw [hnexts, hz] at hn
    obtain ⟨houter, hinner⟩ := List.ne_and_not_mem_of_not_mem_cons hn
    exact update_both (List.ne_of_not_mem_cons hinner) houter
  · rw [hprevs, hf] at hn
    obtain ⟨houter, hinner⟩ := List.ne_and_not_mem_of_not_mem_cons hn
    exact update_both (List.ne_of_not_mem_cons hinner) houter

theorem take_correct {op : Op N} {k : ℕ} (hh : Holds h a l) (hl : l = u ++ c ++ v)
    (hf : c.head? = some f) (hz : c.getLast? = some z) (hplace : op.place a l = (u, c, v))
    (htakes : op.takes = true) (hk : op.result a l = (some z, k)) :
    Correct h (unsplice h (before a u) (behind a v) f z) a l op (some z, k) := by
  have hremoved : op.removed a l = c := by rw [Op.removed, if_pos htakes, hplace]
  have hlink : ∀ n p q, op ≠ .link n p q := by
    rintro n p q rfl
    exact Bool.noConfusion htakes
  obtain ⟨hnexts, hprevs⟩ := written_eq hplace hlink
  obtain ⟨hholds, hchain⟩ := unsplice_holds (hl ▸ hh : Holds h a (u ++ c ++ v)) hf hz
  refine ⟨?_, hk.symm, ?_, fun n hn => ?_, fun n hn => ?_⟩
  · have happly : op.apply a l = u ++ v := by simp only [Op.apply, hplace, htakes, if_true]
    rwa [happly]
  · rwa [hremoved]
  · rw [hnexts, hz] at hn
    obtain ⟨hinner, houter⟩ := List.ne_and_not_mem_of_not_mem_cons hn
    exact update_both hinner (List.ne_of_not_mem_cons houter)
  · rw [hprevs, hf] at hn
    obtain ⟨hinner, houter⟩ := List.ne_and_not_mem_of_not_mem_cons hn
    exact update_both hinner (List.ne_of_not_mem_cons houter)

/-- The list around one of its nodes. -/
theorem around {x : N} (hx : x ∈ l) : ∃ v, from_ x l = x :: v ∧ l = upTo x l ++ x :: v := by
  induction l with
  | nil => exact absurd hx List.not_mem_nil
  | cons b l ih =>
    by_cases hb : b = x
    · subst hb
      exact ⟨l, by simp [from_], by simp [upTo]⟩
    · obtain ⟨v, hfrom, hl⟩ := ih ((List.mem_cons.mp hx).resolve_left (Ne.symm hb))
      refine ⟨v, by rw [from_, List.dropWhile_cons_of_pos (by simpa using hb)]; exact hfrom, ?_⟩
      rw [upTo, List.takeWhile_cons_of_pos (by simpa using hb), List.cons_append]
      exact congrArg (b :: ·) hl

theorem link_correct (hh : Holds h a l) {n : N} {p q : Option N} (hn : n ∉ a :: l) :
    ∃ h' r, Op.exec h a (.link n p q) = some (h', r) ∧ Correct h h' a l (.link n p q) r := by
  have hn' : n ∉ a :: l.reverse := by
    rwa [List.mem_cons, List.mem_reverse, ← List.mem_cons]
  refine ⟨_, _, rfl, ?_, rfl, ⟨trivial, trivial⟩, fun m hm => ?_, fun m hm => ?_⟩
  · have happly : Op.apply a l (.link n p q) = l := by simp [Op.apply, Op.place, Op.takes]
    rw [happly]
    exact ⟨hh.forth.other hn, hh.back.other hn', hh.nodup⟩
  · exact Function.update_of_ne (fun heq => hm (List.mem_singleton.mpr heq)) _ _
  · exact Function.update_of_ne (fun heq => hm (List.mem_singleton.mpr heq)) _ _

/-- Putting in at a place, once that place has been found. -/
theorem put_exec {op : Op N} (hh : Holds h a l) (hl : l = u ++ v) (hc : Fresh h a l c)
    (hplace : op.place a l = (u, c, v)) (htakes : op.takes = false)
    (hlink : ∀ n p q, op ≠ .link n p q)
    (hexec : ∀ f z, c.head? = some f → c.getLast? = some z →
      op.exec h a = some (splice h (before a u) (behind a v) f z, none, 0)) :
    ∃ h' r, op.exec h a = some (h', r) ∧ Correct h h' a l op r := by
  obtain ⟨f, z, hf, hz⟩ := exists_ends hc.ne_nil
  exact ⟨_, _, hexec f z hf hz, put_correct hh hl hc hf hz hplace htakes hlink⟩

theorem push_front_correct (hh : Holds h a l) {e : N} (hc : Fresh h a l [e]) :
    ∃ h' r, Op.exec h a (.pushFront e) = some (h', r) ∧ Correct h h' a l (.pushFront e) r := by
  refine put_exec hh (u := []) rfl hc rfl rfl (by simp) fun f z hf hz => ?_
  obtain rfl : e = f := Option.some.inj hf
  obtain rfl : e = z := Option.some.inj hz
  have hfront := (show Holds h a ([] ++ l) from hh).at_place.1
  rw [Op.exec, pushFront, show h.next a = _ from hfront, Option.bind_some,
    insertBefore_place (u := []) (z := e) hh hc rfl rfl]
  rfl

theorem splice_back_place (hh : Holds h a l) (hc : Fresh h a l c) (hf : c.head? = some f)
    (hz : c.getLast? = some z) :
    spliceBack h a f z = some (splice h (before a l) (behind a []) f z) := by
  have hl := (List.append_nil l).symm
  have hh' : Holds h a (l ++ []) := hl ▸ hh
  have hback : h.prev a = some (before a l) := hh'.at_place.2
  rw [spliceBack, hback, Option.bind_some, insertAfter_place hh' (hl ▸ hc) hf hz]

theorem push_back_correct (hh : Holds h a l) {e : N} (hc : Fresh h a l [e]) :
    ∃ h' r, Op.exec h a (.pushBack e) = some (h', r) ∧ Correct h h' a l (.pushBack e) r := by
  refine put_exec hh (v := []) (List.append_nil l).symm hc rfl rfl (by simp) fun f z hf hz => ?_
  obtain rfl : e = f := Option.some.inj hf
  obtain rfl : e = z := Option.some.inj hz
  have hpush : pushBack h a e = spliceBack h a e e := rfl
  rw [Op.exec, hpush, splice_back_place (z := e) hh hc rfl rfl]
  rfl

theorem splice_back_correct (hh : Holds h a l) (hc : Fresh h a l c) :
    ∃ h' r, Op.exec h a (.spliceBack c) = some (h', r) ∧ Correct h h' a l (.spliceBack c) r := by
  refine put_exec hh (v := []) (List.append_nil l).symm hc rfl rfl (by simp) fun f z hf hz => ?_
  rw [Op.exec, ends_eq hf hz, splice_back_place hh hc hf hz]
  rfl

theorem insert_before_correct (hh : Holds h a l) {x : N} (hx : x ∈ a :: l)
    (hc : Fresh h a l c) :
    ∃ h' r, Op.exec h a (.insertBefore x c) = some (h', r) ∧
      Correct h h' a l (.insertBefore x c) r := by
  have hl : l = upTo x l ++ from_ x l := List.takeWhile_append_dropWhile.symm
  have hbehind : behind a (from_ x l) = x := by
    rcases List.mem_cons.mp hx with rfl | hx
    · have hnone : from_ x l = [] :=
        List.dropWhile_eq_nil_iff.mpr fun y hy => by
          simpa using ne_of_mem_of_not_mem hy (List.nodup_cons.mp hh.nodup).1
      rw [hnone]
      rfl
    · obtain ⟨v, hv, -⟩ := around hx
      rw [hv]
      rfl
  refine put_exec hh hl hc rfl rfl (by simp) fun f z hf hz => ?_
  have hplace := insertBefore_place (hl ▸ hh) (hl ▸ hc) hf hz
  rw [hbehind] at hplace ⊢
  rw [Op.exec, ends_eq hf hz, hplace]
  rfl

theorem insert_after_correct (hh : Holds h a l) {x : N} (hx : x ∈ a :: l)
    (hc : Fresh h a l c) :
    ∃ h' r, Op.exec h a (.insertAfter x c) = some (h', r) ∧
      Correct h h' a l (.insertAfter x c) r := by
  by_cases hxa : x = a
  · subst hxa
    have hplace : Op.place x l (.insertAfter x c) = ([], c, l) := if_pos rfl
    refine put_exec hh rfl hc hplace rfl (by simp) fun f z hf hz => ?_
    have hexec := insertAfter_place (u := []) (v := l) hh hc hf hz
    rw [Op.exec, ends_eq hf hz]
    exact congrArg (Option.map _) hexec
  · obtain ⟨v, hv, hsplit⟩ := around ((List.mem_cons.mp hx).resolve_left hxa)
    have hl : l = (upTo x l ++ [x]) ++ v := by rw [List.append_assoc]; exact hsplit
    have hplace : Op.place a l (.insertAfter x c) = (upTo x l ++ [x], c, v) := by
      rw [Op.place, if_neg hxa, hv, List.drop_one, List.tail_cons]
    have hbefore : before a (upTo x l ++ [x]) = x := by simp [before]
    refine put_exec hh hl hc hplace rfl (by simp) fun f z hf hz => ?_
    have hexec := insertAfter_place (hl ▸ hh) (hl ▸ hc) hf hz
    rw [hbefore] at hexec ⊢
    rw [Op.exec, ends_eq hf hz, hexec]
    rfl

theorem remove_correct (hh : Holds h a l) {e : N} (he : e ∈ l) :
    ∃ h' r, Op.exec h a (.remove e) = some (h', r) ∧ Correct h h' a l (.remove e) r := by
  obtain ⟨v, hv, hsplit⟩ := around he
  have hl : l = upTo e l ++ [e] ++ v := by rw [List.append_assoc]; exact hsplit
  have hplace : Op.place a l (.remove e) = (upTo e l, [e], v) := by
    rw [Op.place, hv, List.drop_one, List.tail_cons]
  have hexec := remove_place (c := [e]) (f := e) (z := e) (hl ▸ hh) rfl rfl
  refine ⟨_, _, ?_, take_correct hh hl rfl rfl hplace rfl rfl⟩
  rw [Op.exec, hexec]
  rfl

/-- The loop goes on to the last node asked for, or to the last there is. -/
theorem removeLoop_spec {i count : ℕ} {e : N} {w : List N}
    (hlinks : Links some h.next (e :: w) (some a)) (ha : a ∉ w) (hi : i ≤ count) :
    ∃ c v z, e :: w = c ++ v ∧ c.head? = some e ∧ c.getLast? = some z ∧
      c = (e :: w).take (count + 1 - i) ∧ v = (e :: w).drop (count + 1 - i) ∧
      removeLoop h a i count (some e) = some (some z, i + c.length - 1) := by
  induction w generalizing i e with
  | nil =>
    have htake : [e].take (count + 1 - i) = [e] := List.take_of_length_le (by simp; omega)
    have hdrop : [e].drop (count + 1 - i) = [] := List.drop_of_length_le (by simp; omega)
    refine ⟨[e], [], e, rfl, rfl, rfl, htake.symm, hdrop.symm, ?_⟩
    rw [removeLoop]
    split
    case isTrue hlt =>
      -- the anchor is next: this sets `count` and ends the loop
      have hlast : h.next e = some a := hlinks.1
      rw [Option.bind_some, if_pos hlast, removeLoop, if_neg (by omega)]
      rfl
    case isFalse hge =>
      obtain rfl : i = count := by omega
      rfl
  | cons b w ih =>
    rcases Nat.eq_or_lt_of_le hi with rfl | hlt
    · refine ⟨[e], b :: w, e, rfl, rfl, rfl, by simp, by simp, ?_⟩
      rw [removeLoop, if_neg (lt_irrefl i)]
      rfl
    · obtain ⟨c, v, z, hsplit, -, hz, hc, hv, hloop⟩ :=
        ih hlinks.2 (fun hm => ha (List.mem_cons_of_mem b hm)) hlt
      have hn : count + 1 - i = count + 1 - (i + 1) + 1 := by omega
      refine ⟨e :: c, v, z, by rw [hsplit, List.cons_append], rfl, ?_, ?_, ?_, ?_⟩
      · rw [List.getLast?_cons, hz, Option.getD_some]
      · rw [hn, List.take_succ_cons, ← hc]
      · rw [hn, List.drop_succ_cons, ← hv]
      · have hne : h.next e ≠ some a := by
          rw [hlinks.1, first_cons]
          exact fun heq => ha (Option.some.inj heq ▸ List.mem_cons_self)
        rw [removeLoop, if_pos hlt, Option.bind_some, if_neg hne, hlinks.1, first_cons, hloop,
          List.length_cons]
        congr 2
        omega

theorem remove_count_correct (hh : Holds h a l) {e : N} {count : ℕ} (he : e ∈ l)
    (hpos : 1 ≤ count) :
    ∃ h' r, Op.exec h a (.removeCount e count) = some (h', r) ∧
      Correct h h' a l (.removeCount e count) r := by
  obtain ⟨w, hw, hsplit⟩ := around he
  have hforth := hh.forth
  rw [hsplit, ← List.cons_append] at hforth
  have haw : a ∉ w := fun hm => (List.nodup_cons.mp hh.nodup).1
    (hsplit ▸ List.mem_append_right _ (List.mem_cons_of_mem e hm))
  obtain ⟨c, v, z, hcv, hf, hz, hc, hv, hloop⟩ :=
    removeLoop_spec (Links.append_iff.mp hforth).2 haw hpos
  rw [Nat.add_sub_cancel, ← hw] at hc hv
  have hl : l = upTo e l ++ c ++ v := by rw [List.append_assoc, ← hcv]; exact hsplit
  have hplace : Op.place a l (.removeCount e count) = (upTo e l, c, v) := by
    rw [Op.place, ← hc, ← hv]
  have hresult : Op.result a l (.removeCount e count) = (some z, c.length) := by
    have hremoved : Op.removed a l (.removeCount e count) = c := by
      rw [Op.removed, hplace]
      rfl
    simp only [Op.result, hremoved, hz]
  have hexec := remove_place (hl ▸ hh) hf hz
  have hlinked := hh.linked (List.mem_cons_of_mem a he)
  refine ⟨_, _, ?_, take_correct hh hl hf hz hplace rfl hresult⟩
  rw [Nat.add_sub_cancel_left] at hloop
  simp [Op.exec, removeCount, Ring.linked, hlinked, hloop, hexec, guard]

/-- A list that is not empty says so. -/
theorem empty_eq (hh : Holds h a l) (hl : l ≠ []) : empty h a = some false := by
  have hfront : h.next a = some (behind a l) := (show Holds h a ([] ++ l) from hh).at_place.1
  have hback : h.prev a = some (before a l) :=
    ((List.append_nil l).symm ▸ hh : Holds h a (l ++ [])).at_place.2
  have hanot := (List.nodup_cons.mp hh.nodup).1
  have hne : behind a l ≠ a ∧ before a l ≠ a := by
    obtain ⟨f, z, hf, hz⟩ := exists_ends hl
    rw [behind, before, hf, hz]
    exact ⟨ne_of_mem_of_not_mem (List.mem_of_head? hf) hanot,
      ne_of_mem_of_not_mem (List.mem_of_getLast? hz) hanot⟩
  simp [empty, hfront, hback, hne]

theorem pop_front_correct (hh : Holds h a l) (hl : l ≠ []) :
    ∃ h' r, Op.exec h a .popFront = some (h', r) ∧ Correct h h' a l .popFront r := by
  obtain ⟨e, v, rfl⟩ := List.exists_cons_of_ne_nil hl
  have hfront : h.next a = some e := hh.forth.1
  have hexec := remove_place (u := []) (c := [e]) (f := e) (z := e) hh rfl rfl
  refine ⟨_, (some e, 0), ?_, take_correct (u := []) (c := [e]) hh rfl rfl rfl rfl rfl rfl⟩
  simp [Op.exec, popFront, empty_eq hh hl, hfront, hexec, guard]

theorem pop_back_correct (hh : Holds h a l) (hl : l ≠ []) :
    ∃ h' r, Op.exec h a .popBack = some (h', r) ∧ Correct h h' a l .popBack r := by
  obtain ⟨u, e, rfl⟩ := (List.eq_nil_or_concat' l).resolve_left hl
  have hsplit : u ++ [e] = u ++ [e] ++ [] := (List.append_nil _).symm
  have hback : h.prev a = some e := by
    have hplace := (hsplit ▸ hh : Holds h a (u ++ [e] ++ [])).at_place.2
    rwa [before, List.getLast?_concat, Option.getD_some] at hplace
  have hexec := remove_place (c := [e]) (f := e) (z := e) (hsplit ▸ hh) rfl rfl
  have hplace : Op.place a (u ++ [e]) .popBack = (u, [e], []) := by simp [Op.place]
  have hresult : Op.result a (u ++ [e]) .popBack = (some e, 0) := by
    simp [Op.result, Op.removed, Op.takes, Op.place]
  refine ⟨_, (some e, 0), ?_, take_correct hh hsplit rfl rfl hplace rfl hresult⟩
  simp [Op.exec, popBack, empty_eq hh hl, hback, hexec, guard]

theorem exec_correct (hh : Holds h a l) {op : Op N} (hpre : op.Pre h a l) :
    ∃ h' r, op.exec h a = some (h', r) ∧ Correct h h' a l op r := by
  cases op with
  | link n p q => exact link_correct hh hpre
  | pushFront e => exact push_front_correct hh hpre
  | pushBack e => exact push_back_correct hh hpre
  | spliceBack c => exact splice_back_correct hh hpre
  | insertBefore x c => exact insert_before_correct hh hpre.1 hpre.2
  | insertAfter x c => exact insert_after_correct hh hpre.1 hpre.2
  | remove e => exact remove_correct hh hpre
  | removeCount e n => exact remove_count_correct hh hpre.1 hpre.2
  | popFront => exact pop_front_correct hh hpre
  | popBack => exact pop_back_correct hh hpre

theorem reach_holds (hr : Reach a h l) : Holds h a l := by
  induction hr with
  | new h => exact ⟨⟨Function.update_self .., trivial⟩, ⟨Function.update_self .., trivial⟩, by simp⟩
  | step _ hpre hexec ih =>
    obtain ⟨h', r, hexec', hcorrect⟩ := exec_correct ih hpre
    obtain ⟨rfl, rfl⟩ := Prod.mk.inj (Option.some.inj (hexec.symm.trans hexec'))
    exact hcorrect.holds

/-- In every run the ring through the anchor is the abstract list, its links are mutual, and every
    operation does to it what it does to the list. -/
theorem list_refines (hr : Reach a h l) :
    Holds h a l ∧
      (∀ n ∈ a :: l, (∃ m, h.next n = some m ∧ h.prev m = some n) ∧
        ∃ m, h.prev n = some m ∧ h.next m = some n) ∧
      ∀ op : Op N, op.Pre h a l → ∃ h' r, op.exec h a = some (h', r) ∧ Correct h h' a l op r :=
  ⟨reach_holds hr, fun _ => (reach_holds hr).mutual, fun _ => exec_correct (reach_holds hr)⟩

/-- A detached chain 1, 2, 3. -/
def chained : Heap ℕ :=
  ⟨fun n => if n = 1 then some 2 else if n = 2 then some 3 else none,
    fun n => if n = 3 then some 2 else if n = 2 then some 1 else none⟩

/-- The chain is spliced in, and a single node behind it. -/
theorem reach_four : ∃ h, Reach 0 h [1, 2, 3, 4] := by
  have hnew : Reach 0 ((chained.setPrev 0 (some 0)).setNext 0 (some 0)) [] := .new chained
  have hchain : (Op.spliceBack [1, 2, 3]).Pre
      ((chained.setPrev 0 (some 0)).setNext 0 (some 0)) 0 [] :=
    ⟨by simp, by decide, ⟨rfl, rfl, rfl, trivial⟩, ⟨rfl, rfl, rfl, trivial⟩⟩
  obtain ⟨h₁, r₁, hexec₁, hcorrect₁⟩ := exec_correct (reach_holds hnew) hchain
  have hthree : Reach 0 h₁ [1, 2, 3] := hnew.step hchain hexec₁
  have hsingle : (Op.pushBack 4).Pre h₁ 0 [1, 2, 3] :=
    ⟨by simp, by decide, ⟨hcorrect₁.nexts 4 (by decide), trivial⟩,
      ⟨hcorrect₁.prevs 4 (by decide), trivial⟩⟩
  obtain ⟨h₂, r₂, hexec₂, -⟩ := exec_correct (reach_holds hthree) hsingle
  exact ⟨h₂, hthree.step hsingle hexec₂⟩

/-- Two nodes are taken out of the middle; then one, where three are asked for, up to the anchor. -/
theorem list_refines_four : ∃ h h' h'' : Heap ℕ, Holds h 0 [1, 2, 3, 4] ∧
    Op.exec h 0 (.removeCount 2 2) = some (h', some 3, 2) ∧
    Correct h h' 0 [1, 2, 3, 4] (.removeCount 2 2) (some 3, 2) ∧ Holds h' 0 [1, 4] ∧
    Op.exec h' 0 (.removeCount 4 3) = some (h'', some 4, 1) ∧
    Correct h' h'' 0 [1, 4] (.removeCount 4 3) (some 4, 1) ∧ Holds h'' 0 [1] := by
  obtain ⟨h, hr⟩ := reach_four
  have hpre : (Op.removeCount 2 2).Pre h 0 [1, 2, 3, 4] := ⟨by decide, by decide⟩
  obtain ⟨h', r', hexec', hcorrect'⟩ := (list_refines hr).2.2 _ hpre
  obtain rfl : r' = (some 3, 2) := hcorrect'.result
  have hr' : Reach 0 h' [1, 4] := hr.step hpre hexec'
  have hpre' : (Op.removeCount 4 3).Pre h' 0 [1, 4] := ⟨by decide, by decide⟩
  obtain ⟨h'', r'', hexec'', hcorrect''⟩ := (list_refines hr').2.2 _ hpre'
  obtain rfl : r'' = (some 4, 1) := hcorrect''.result
  exact ⟨h, h', h'', (list_refines hr).1, hexec', hcorrect', (list_refines hr').1, hexec'',
    hcorrect'', hcorrect''.holds⟩

end Libfibre.IntrusiveList
