import Mathlib.Tactic.SplitIfs
import Libfibre.Schemes.Threads
import Libfibre.LockFreeQueues.Stub

/-! `QueueStub` is a FIFO queue. The stub is a node of the line like any other, and as long as it is in it
    the line never runs empty: no pop has to swing the tail back, and `head` is always the first node.
    The stub is out of the line only while one pop moves it from the front to the end. -/

namespace Libfibre.QueueStub
open Transition LinkedList Threads

variable {N T : Type}

/-! ### What a thread has in hand -/

/-- The link that a thread still has to make. -/
def Pc.owes : Pc N → Option (Node N × Node N)
  | .link prev first _ => some (prev, .elem first)
  | .reLink prev => some (prev, .stub)
  | _ => none

/-- The node that a pop has taken. -/
def Pc.node : Pc N → Option (Node N)
  | .setHead retval _ | .unlock retval | .clear retval => some retval
  | _ => none

def Pc.locked : Pc N → Bool
  | .out | .swing .. | .link .. | .lock | .clear _ => false
  | _ => true

/-- `head` is the first node, and the stub is one of the nodes. -/
def Whole (s : State N T) (l : List (Node N)) : Prop := s.head = l.head? ∧ .stub ∈ l

/-- What the thread in the lock section relies on. -/
def Front (s : State N T) (l : List (Node N)) : Pc N → Prop
  | .test => Whole s l ∧ s.head = some .stub
  | .waitStub => Whole s l ∧ s.head = some .stub ∧ l ≠ [.stub]
  | .readStub => Whole s l ∧ s.head = some .stub ∧ s.next .stub ≠ none
  | .setStub next => next = l.head? ∧ l ≠ [] ∧ .stub ∉ l ∧ s.head = some .stub
  | .clearStub => s.head = l.head? ∧ l ≠ [] ∧ .stub ∉ l
  | .reSwing => s.head = l.head? ∧ l ≠ [] ∧ .stub ∉ l ∧ s.next .stub = none
  | .reLink _ | .loadHead => Whole s l ∧ s.head ≠ some .stub
  | .waitHead retval => Whole s l ∧ s.head = some retval ∧ retval ≠ .stub
  | .waitNext retval h => Whole s l ∧ s.head = some retval ∧ retval ≠ .stub ∧ h = retval
  | .readHead retval => Whole s l ∧ s.head = some retval ∧ retval ≠ .stub ∧ s.next retval ≠ none
  | .readNext retval h =>
    Whole s l ∧ s.head = some retval ∧ retval ≠ .stub ∧ s.next retval ≠ none ∧ h = retval
  | .setHead retval next =>
    next = l.head? ∧ .stub ∈ l ∧ s.head = some retval ∧ s.next retval = l.head?
  | _ => Whole s l

/-- What the caller of `push` has made ready. -/
structure Segment (s : State N T) (t : T) (k : List N) : Prop where
  nodup : k.Nodup
  owned : ∀ n ∈ k, s.owner n = .pushing t
  links : ∀ a b, Adj (k.map Node.elem) a b → s.next a = some b
  ends : ∀ z, (k.map Node.elem).getLast? = some z → s.next z = none

/-- The elements among the nodes. -/
def elems : List (Node N) → List N
  | [] => []
  | .stub :: l => elems l
  | .elem n :: l => n :: elems l

@[simp] theorem elems_append : ∀ l k : List (Node N), elems (l ++ k) = elems l ++ elems k
  | [], _ => rfl
  | .stub :: l, k => elems_append l k
  | .elem n :: l, k => congrArg (n :: ·) (elems_append l k)

@[simp] theorem elems_map : ∀ k : List N, elems (k.map Node.elem) = k
  | [] => rfl
  | n :: k => congrArg (n :: ·) (elems_map k)

/-- INVARIANT: the line is `l`. -/
structure Inv (s : State N T) (l : List (Node N)) : Prop where
  history : s.pushed.map Node.elem = s.popped ++ (elems l).map Node.elem
  queued : ∀ n, s.owner n = .queued ↔ .elem n ∈ l
  free : ∀ n, s.owner n = .free → s.next (.elem n) = none
  node : ∀ t v, (s.pc t).node = some v → ∃ n, v = .elem n ∧ s.owner n = .popping t
  segment : ∀ t first rest, s.pc t = .swing first rest → Segment s t (first :: rest)
  lock : ∀ t, (s.pc t).locked = true ↔ s.lock = some t
  front : ∀ t, s.lock = some t → Front s l (s.pc t)
  whole : s.lock = none → Whole s l
  line : Line s.next (some s.tail.node) (fun t => (s.pc t).owes) l
  marked : s.tail.marked = true → l = [.stub]

theorem Whole.ne_nil {s : State N T} {l : List (Node N)} (h : Whole s l) : l ≠ [] := by
  rintro rfl
  cases h.2

/-- The line grows behind the lock section's back. -/
theorem Whole.mono {s s' : State N T} {l : List (Node N)} (h : Whole s l) (hhead : s'.head = s.head)
    (k : List (Node N)) : Whole s' (l ++ k) :=
  ⟨by rw [hhead, h.1, List.head?_append_of_ne_nil _ h.ne_nil], List.mem_append_left k h.2⟩

theorem Front.mono {s s' : State N T} {l : List (Node N)} (k : List (Node N)) (hk : .stub ∉ k)
    (hhead : s'.head = s.head) {p : Pc N}
    (hnext : ∀ a, a ∈ l ∨ p.node = some a → s.next a ≠ none → s'.next a = s.next a)
    (hstub : .stub ∉ l → s'.next .stub = s.next .stub) (h : Front s l p) : Front s' (l ++ k) p := by
  have hhead' : l ≠ [] → (l ++ k).head? = l.head? := List.head?_append_of_ne_nil _
  have hne : l ≠ [] → l ++ k ≠ [] := fun hl => List.append_ne_nil_of_left_ne_nil hl k
  have hout : .stub ∉ l → .stub ∉ l ++ k := fun hl hmem => (List.mem_append.mp hmem).elim hl hk
  have hlink : ∀ a ∈ l, s.next a ≠ none → s'.next a ≠ none := fun a ha hn => by
    rw [hnext a (.inl ha) hn]
    exact hn
  cases p with
  | test => exact ⟨h.1.mono hhead k, hhead.trans h.2⟩
  | waitStub =>
    obtain ⟨hwhole, hh, hl⟩ := h
    refine ⟨hwhole.mono hhead k, hhead.trans hh, fun hone => ?_⟩
    rcases List.append_eq_singleton_iff.mp hone with ⟨rfl, -⟩ | ⟨rfl, -⟩
    · exact hwhole.ne_nil rfl
    · exact hl rfl
  | readStub => exact ⟨h.1.mono hhead k, hhead.trans h.2.1, hlink _ h.1.2 h.2.2⟩
  | setStub next =>
    exact ⟨h.1.trans (hhead' h.2.1).symm, hne h.2.1, hout h.2.2.1, hhead.trans h.2.2.2⟩
  | clearStub => exact ⟨hhead.trans (h.1.trans (hhead' h.2.1).symm), hne h.2.1, hout h.2.2⟩
  | reSwing =>
    obtain ⟨hh, hl, hnot, hnull⟩ := h
    exact ⟨hhead.trans (hh.trans (hhead' hl).symm), hne hl, hout hnot, (hstub hnot).trans hnull⟩
  | reLink prev => exact ⟨h.1.mono hhead k, hhead ▸ h.2⟩
  | loadHead => exact ⟨h.1.mono hhead k, hhead ▸ h.2⟩
  | waitHead r => exact ⟨h.1.mono hhead k, hhead.trans h.2.1, h.2.2⟩
  | waitNext r v => exact ⟨h.1.mono hhead k, hhead.trans h.2.1, h.2.2⟩
  | readHead r =>
    exact ⟨h.1.mono hhead k, hhead.trans h.2.1, h.2.2.1,
      hlink _ (List.mem_of_head? (h.1.1.symm.trans h.2.1)) h.2.2.2⟩
  | readNext r v =>
    exact ⟨h.1.mono hhead k, hhead.trans h.2.1, h.2.2.1,
      hlink _ (List.mem_of_head? (h.1.1.symm.trans h.2.1)) h.2.2.2.1, h.2.2.2.2⟩
  | setHead r next =>
    obtain ⟨hn, hmem, hh, hr⟩ := h
    have hl : l ≠ [] := by
      rintro rfl
      cases hmem
    have hlinked : s.next r ≠ none := by
      rw [hr]
      exact fun hnone => hl (List.head?_eq_none_iff.mp hnone)
    exact ⟨hn.trans (hhead' hl).symm, List.mem_append_left k hmem, hhead.trans hh,
      (hnext r (.inr rfl) hlinked).trans (hr.trans (hhead' hl).symm)⟩
  | out | swing first rest | link prev first empty | lock | check | leave | unlock r | clear r =>
    exact Whole.mono h hhead k

/-! ### One thread moves -/

section Steps
variable {s s' : State N T} {l l' : List (Node N)} {t : T} {p : Pc N}

/-- The thread in the lock section. -/
theorem Inv.front_of (h : Inv s l) (ht : (s.pc t).locked = true) : Front s l (s.pc t) :=
  h.front t ((h.lock t).mp ht)

theorem elem_mem_elems {n : N} : ∀ {l : List (Node N)}, n ∈ elems l ↔ .elem n ∈ l
  | [] => by simp [elems]
  | .stub :: l => by simp [elems, elem_mem_elems (l := l)]
  | .elem m :: l => by simp [elems, elem_mem_elems (l := l)]

variable [DecidableEq T]

/-- Thread `t` moves to `p`. -/
theorem Inv.move (h : Inv s l) (hpc : s'.pc = Function.update s.pc t p)
    (hhistory : s'.pushed.map Node.elem = s'.popped ++ (elems l').map Node.elem)
    (hqueued : ∀ n, s'.owner n = .queued ↔ .elem n ∈ l')
    (hfree : ∀ n, s'.owner n = .free → s'.next (.elem n) = none)
    (howner : ∀ n u, u ≠ t → (s.owner n = .popping u → s'.owner n = .popping u) ∧
      (s.owner n = .pushing u → s'.owner n = .pushing u ∧ s'.next (.elem n) = s.next (.elem n)))
    (hnode : ∀ v, p.node = some v → ∃ n, v = .elem n ∧ s'.owner n = .popping t)
    (hsegment : ∀ first rest, p = .swing first rest → Segment s' t (first :: rest))
    (hlock : (∀ u, u ≠ t → (s'.lock = some u ↔ s.lock = some u)) ∧
      (p.locked = true ↔ s'.lock = some t))
    (hfront : (s'.lock = some t → Front s' l' p) ∧
      ∀ u, u ≠ t → s.lock = some u → Front s' l' (s.pc u))
    (hwhole : s'.lock = none → Whole s' l')
    (hline : Line s'.next (some s'.tail.node) (Function.update (fun u => (s.pc u).owes) t p.owes) l')
    (hmarked : s'.tail.marked = true → l' = [.stub]) : Inv s' l' := by
  have howes : (fun u => (s'.pc u).owes) = Function.update (fun u => (s.pc u).owes) t p.owes := by
    rw [hpc]
    exact Function.comp_update Pc.owes s.pc t p
  refine ⟨hhistory, hqueued, hfree, fun u v hv => ?_, fun u first rest hu => ?_,
    by rw [hpc]; exact lock_move h.lock hlock, fun u hu => ?_, hwhole, by rw [howes]; exact hline,
    hmarked⟩ <;> rcases eq_or_ne u t with rfl | hne
  · rw [hpc, Function.update_self] at hv
    exact hnode v hv
  · rw [hpc, Function.update_of_ne hne] at hv
    obtain ⟨n, rfl, hn⟩ := h.node u v hv
    exact ⟨n, rfl, (howner n u hne).1 hn⟩
  · rw [hpc, Function.update_self] at hu
    exact hsegment first rest hu
  · rw [hpc, Function.update_of_ne hne] at hu
    obtain ⟨hnodup, howned, hlinks, hends⟩ := h.segment u first rest hu
    have hkeep : ∀ n ∈ first :: rest, s'.owner n = .pushing u ∧ s'.next (.elem n) = s.next (.elem n) :=
      fun n hn => (howner n u hne).2 (howned n hn)
    have hnext : ∀ a ∈ (first :: rest).map Node.elem, s'.next a = s.next a := by
      intro a ha
      obtain ⟨n, hn, rfl⟩ := List.mem_map.mp ha
      exact (hkeep n hn).2
    refine ⟨hnodup, fun n hn => (hkeep n hn).1, fun a b hab => ?_, fun z hz => ?_⟩
    · rw [hnext a hab.left_mem]
      exact hlinks a b hab
    · rw [hnext z (List.mem_of_getLast? hz)]
      exact hends z hz
  · rw [hpc, Function.update_self]
    exact hfront.1 hu
  · rw [hpc, Function.update_of_ne hne]
    exact hfront.2 u hne ((hlock.1 u hne).mp hu)

omit [DecidableEq T] in
/-- The front after a thread outside of the lock section has moved. -/
theorem Inv.front_quiet {r : State N T} (h : Inv s l) (ht : (s.pc t).locked = false) (hlock : r.lock = s.lock)
    (k : List (Node N)) (hk : .stub ∉ k) (hhead : r.head = s.head)
    (hnext : ∀ u a, u ≠ t → a ∈ l ∨ (s.pc u).node = some a → s.next a ≠ none →
      r.next a = s.next a)
    (hstub : .stub ∉ l → r.next .stub = s.next .stub) :
    ((r.lock = some t → Front r (l ++ k) p) ∧
      ∀ u, u ≠ t → s.lock = some u → Front r (l ++ k) (s.pc u)) ∧
      (r.lock = none → Whole r (l ++ k)) := by
  refine ⟨⟨fun hmine => ?_, fun u hu hlock => (h.front u hlock).mono k hk hhead (fun a => hnext u a hu)
    hstub⟩, fun hfree => ?_⟩
  · rw [hlock] at hmine
    rw [(h.lock t).mpr hmine] at ht
    cases ht
  · rw [hlock] at hfree
    exact (h.whole hfree).mono hhead k

omit [DecidableEq T] in
/-- The front after the thread in the lock section has moved. -/
theorem Inv.front_held {r : State N T} {k : List (Node N)} (h : Inv s l)
    (ht : (s.pc t).locked = true) (hlock : r.lock = s.lock)
    (hfront : Front r k p) :
    ((r.lock = some t → Front r k p) ∧ ∀ u, u ≠ t → s.lock = some u → Front r k (s.pc u)) ∧
      (r.lock = none → Whole r k) := by
  have hmine := (h.lock t).mp ht
  refine ⟨⟨fun _ => hfront, fun u hu hlock => ?_⟩, fun hfree => ?_⟩
  · rw [hmine] at hlock
    exact absurd (Option.some.inj hlock).symm hu
  · rw [hlock, hmine] at hfree
    cases hfree

/-- A step that touches no node. -/
theorem Inv.walk (h : Inv s l) (hpc : s'.pc = Function.update s.pc t p)
    (hsame : s'.next = s.next ∧ s'.owner = s.owner ∧ s'.pushed = s.pushed ∧ s'.popped = s.popped)
    (htail : s'.tail.node = s.tail.node) (helems : elems l' = elems l)
    (hnode : ∀ v, p.node = some v → (s.pc t).node = some v)
    (howes : (s.pc t).owes = none ∧ p.owes = none) (hsegment : ∀ first rest, p ≠ .swing first rest)
    (hlock : (∀ u, u ≠ t → (s'.lock = some u ↔ s.lock = some u)) ∧
      (p.locked = true ↔ s'.lock = some t))
    (hfront : ((s'.lock = some t → Front s' l' p) ∧
      ∀ u, u ≠ t → s.lock = some u → Front s' l' (s.pc u)) ∧ (s'.lock = none → Whole s' l'))
    (hline : Line s.next (some s.tail.node) (fun u => (s.pc u).owes) l')
    (hmarked : s'.tail.marked = true → l' = [.stub]) : Inv s' l' := by
  obtain ⟨hnext, howner, hpushed, hpopped⟩ := hsame
  refine h.move hpc (by rw [hpushed, hpopped, helems]; exact h.history) (fun n => ?_)
    (by rw [howner, hnext]; exact h.free) (fun n u _ => ?_) (fun v hv => ?_)
    (fun first rest hp => absurd hp (hsegment first rest)) hlock hfront.1 hfront.2 ?_ hmarked
  · rw [howner, h.queued, ← elem_mem_elems, ← elem_mem_elems, helems]
  · rw [howner, hnext]
    exact ⟨id, fun hn => ⟨hn, rfl⟩⟩
  · rw [howner]
    exact h.node t v (hnode v hv)
  · rw [hnext, htail, kept (f := Pc.owes) (howes.2.trans howes.1.symm)]
    exact hline

/-! ### `push` -/

section Push
variable [DecidableEq N]

omit [DecidableEq N] [DecidableEq T] in
/-- A node of the line is the stub or a queued element. -/
theorem Inv.mem_line {n : N} (h : Inv s l) (hn : s.owner n ≠ .queued) : .elem n ∉ l :=
  fun hl => hn ((h.queued n).mpr hl)

omit [DecidableEq N] in
theorem map_elem_nodup {k : List N} (hk : k.Nodup) : (k.map Node.elem).Nodup :=
  hk.map fun _ _ h => Node.elem.inj h

omit [DecidableEq N] in
theorem elem_mem_map {k : List N} {n : N} : .elem n ∈ k.map Node.elem ↔ n ∈ k :=
  List.mem_map_of_injective fun _ _ h => Node.elem.inj h

omit [DecidableEq N] in
theorem stub_not_mem_map {k : List N} : .stub ∉ k.map Node.elem := by simp

/-- STEP: a call of `push`. -/
theorem Inv.push {first : N} {rest : List N} (h : Inv s l) (hpc : s.pc t = .out)
    (hnodup : (first :: rest).Nodup) (hfree : ∀ n ∈ first :: rest, s.owner n = .free) :
    Inv (State.goto { s with
      next := prelink s.next ((first :: rest).map .elem)
      owner := updateAll s.owner (first :: rest) (.pushing t) } t (.swing first rest)) l := by
  have hout : ∀ n, s.owner n ≠ .free → n ∉ first :: rest := fun n hn hmem => hn (hfree n hmem)
  have hnext : ∀ n, n ∉ first :: rest →
      prelink s.next ((first :: rest).map .elem) (.elem n) = s.next (.elem n) := fun n hn =>
    prelink_other _ fun hmem => hn (elem_mem_map.mp hmem)
  have hline : ∀ a ∈ l, prelink s.next ((first :: rest).map .elem) a = s.next a := by
    intro a ha
    cases a with
    | stub => exact prelink_other _ stub_not_mem_map
    | elem n => exact hnext n (hout n (by rw [(h.queued n).mpr ha]; simp))
  have hfront := h.front_quiet (t := t) (p := .swing first rest) (r := State.goto { s with
      next := prelink s.next ((first :: rest).map .elem)
      owner := updateAll s.owner (first :: rest) (.pushing t) } t (.swing first rest))
    (by rw [hpc]; rfl) rfl [] (by simp) rfl (fun u a _ ha _ => ?_)
    fun _ => prelink_other _ stub_not_mem_map
  swap
  · rcases ha with ha | ha
    · exact hline a ha
    · obtain ⟨n, rfl, hn⟩ := h.node u a ha
      exact hnext n (hout n (by rw [hn]; simp))
  rw [List.append_nil] at hfront
  refine h.move rfl h.history (fun n => ?_) (fun n hn => ?_) (fun n u hu => ⟨fun hn => ?_, fun hn => ?_⟩)
    (fun v hv => by cases hv) (fun first' rest' hp => ?_) (lock_same h.lock rfl (by rw [hpc]; rfl))
    hfront.1 hfront.2 ?_ h.marked
  · show updateAll s.owner (first :: rest) (.pushing t) n = .queued ↔ .elem n ∈ l
    by_cases hmem : n ∈ first :: rest
    · rw [updateAll_mem hmem]
      exact iff_of_false (by simp) (h.mem_line (by rw [hfree n hmem]; simp))
    · rw [updateAll_other hmem]
      exact h.queued n
  · have hset : updateAll s.owner (first :: rest) (.pushing t) n = .free := hn
    obtain ⟨hmem, hset⟩ := of_updateAll hset nofun
    exact (hnext n hmem).trans (h.free n hset)
  · exact (updateAll_other (hout n (by rw [hn]; simp))).trans hn
  · have hmem := hout n (by rw [hn]; simp)
    exact ⟨(updateAll_other hmem).trans hn, hnext n hmem⟩
  · obtain ⟨rfl, rfl⟩ := Pc.swing.inj hp
    refine ⟨hnodup, fun n hn => updateAll_mem hn,
      fun a b hab => prelink_adj _ (map_elem_nodup hnodup) hab, fun z hz => ?_⟩
    obtain ⟨n, hn, rfl⟩ := List.mem_map.mp (List.mem_of_getLast? hz)
    exact (prelink_last _ (map_elem_nodup hnodup) hz).trans (h.free n (hfree n hn))
  · rw [kept (f := Pc.owes) (by rw [hpc]; rfl)]
    exact h.line.congr hline

/-- STEP: the exchange of the tail. -/
theorem Inv.swing {first : N} {rest : List N} {fresh : Bool} {due : T → Bool} {empty : Bool}
    (h : Inv s l) (hpc : s.pc t = .swing first rest) :
    Inv (State.goto { s with
      tail := ⟨.elem ((first :: rest).getLast (List.cons_ne_nil first rest)), false⟩
      pushed := s.pushed ++ first :: rest
      owner := updateAll s.owner (first :: rest) .queued
      fresh := fresh
      due := due } t (.link s.tail.node first empty)) (l ++ (first :: rest).map .elem) := by
  obtain ⟨hnodup, howned, hlinks, hends⟩ := h.segment t first rest hpc
  have hout : ∀ n, s.owner n ≠ .pushing t → n ∉ first :: rest := fun n hn hmem => hn (howned n hmem)
  have hlast : ((first :: rest).map Node.elem).getLast? =
      some (.elem ((first :: rest).getLast (List.cons_ne_nil first rest))) := by
    rw [List.getLast?_map, List.getLast?_eq_some_getLast (List.cons_ne_nil first rest)]
    rfl
  have hfront := h.front_quiet (t := t) (p := .link s.tail.node first empty) (r := State.goto { s with
      tail := ⟨.elem ((first :: rest).getLast (List.cons_ne_nil first rest)), false⟩
      pushed := s.pushed ++ first :: rest
      owner := updateAll s.owner (first :: rest) .queued
      fresh := fresh
      due := due } t (.link s.tail.node first empty))
    (by rw [hpc]; rfl) rfl _ (stub_not_mem_map (k := first :: rest)) rfl (fun _ _ _ _ _ => rfl) fun _ => rfl
  refine h.move rfl ?_ (fun n => ?_) (fun n hn => ?_) (fun n u hu => ⟨fun hn => ?_, fun hn => ?_⟩)
    (fun v hv => by cases hv) (fun first' rest' hp => by cases hp) (lock_same h.lock rfl (by rw [hpc]; rfl))
    hfront.1 hfront.2 ?_ (fun hm => by cases hm)
  · show (s.pushed ++ first :: rest).map Node.elem = _
    rw [List.map_append, h.history, elems_append, elems_map, List.map_append, List.append_assoc]
    rfl
  · show updateAll s.owner (first :: rest) .queued n = .queued ↔ .elem n ∈ l ++ _
    rw [List.mem_append, elem_mem_map, updateAll_iff, h.queued n]
  · have hset : updateAll s.owner (first :: rest) .queued n = .free := hn
    exact h.free n (of_updateAll hset nofun).2
  · exact (updateAll_other (hout n (by rw [hn]; simp))).trans hn
  · have hmem := hout n (by rw [hn]; simpa using hu)
    exact ⟨(updateAll_other hmem).trans hn, rfl⟩
  · have happend := h.line.append (t := t) (k := (first :: rest).map Node.elem) (b := .elem first)
      (by rw [hpc]; rfl) rfl (map_elem_nodup hnodup) (fun x hx hl => ?_) hlinks hends
    · rw [hlast] at happend
      exact happend
    · obtain ⟨n, hn, rfl⟩ := List.mem_map.mp hx
      exact h.mem_line (by rw [howned n hn]; simp) hl

/-- A thread makes the link that it owes. -/
theorem Inv.link {a b : Node N} (h : Inv s l) (howes : (s.pc t).owes = some (a, b))
    (hpc : s'.pc = Function.update s.pc t p) (hnext : s'.next = Function.update s.next a (some b))
    (hsame : s'.owner = s.owner ∧ s'.pushed = s.pushed ∧ s'.popped = s.popped) (htail : s'.tail = s.tail)
    (hnode : p.node = none) (hp : p.owes = none) (hsegment : ∀ first rest, p ≠ .swing first rest)
    (hlock : (∀ u, u ≠ t → (s'.lock = some u ↔ s.lock = some u)) ∧
      (p.locked = true ↔ s'.lock = some t))
    (hfront : ((s'.lock = some t → Front s' l p) ∧
      ∀ u, u ≠ t → s.lock = some u → Front s' l (s.pc u)) ∧ (s'.lock = none → Whole s' l)) :
    Inv s' l := by
  obtain ⟨howner, hpushed, hpopped⟩ := hsame
  have hmem : a ∈ l := (h.line.owed t a b howes).1.left_mem
  have hother : ∀ n, s.owner n ≠ .queued → s'.next (.elem n) = s.next (.elem n) := by
    intro n hn
    rw [hnext, Function.update_of_ne]
    rintro rfl
    exact h.mem_line hn hmem
  refine h.move hpc (by rw [hpushed, hpopped]; exact h.history) (by rw [howner]; exact h.queued)
    (fun n hn => ?_) (fun n u _ => ?_) (fun v hv => by rw [hnode] at hv; cases hv)
    (fun first rest hp => absurd hp (hsegment first rest)) hlock hfront.1 hfront.2 ?_
    (by rw [htail]; exact h.marked)
  · rw [howner] at hn
    rw [hother n (by rw [hn]; simp)]
    exact h.free n hn
  · rw [howner]
    exact ⟨id, fun hn => ⟨hn, hother n (by rw [hn]; simp)⟩⟩
  · rw [hnext, htail, hp]
    exact h.line.link howes

/-- STEP: the old tail gets its link. -/
theorem Inv.linkPush {prev : Node N} {first : N} {empty : Bool} (h : Inv s l)
    (hpc : s.pc t = .link prev first empty) :
    Inv (State.returns { s with next := Function.update s.next prev (some (.elem first)) } t
      (.pushed empty)) l := by
  have howes : (s.pc t).owes = some (prev, .elem first) := by rw [hpc]; rfl
  have hmem : prev ∈ l := (h.line.owed t _ _ howes).1.left_mem
  have hfront := h.front_quiet (t := t) (p := .out) (r := State.returns { s with
      next := Function.update s.next prev (some (.elem first)) } t (.pushed empty))
    (by rw [hpc]; rfl) rfl [] (by simp) rfl (fun u a _ _ hn => ?_) fun hstub => ?_
  · rw [List.append_nil] at hfront
    exact h.link howes rfl rfl ⟨rfl, rfl, rfl⟩ rfl rfl rfl (fun first rest hp => by cases hp)
      (lock_same h.lock rfl (by rw [hpc]; rfl)) hfront
  · refine Function.update_of_ne ?_ ..
    rintro rfl
    exact hn (h.line.owed t _ _ howes).2
  · refine Function.update_of_ne ?_ ..
    rintro rfl
    exact hstub hmem

end Push

/-! ### The lock section -/

/-- A thread outside of the lock section takes a step that touches nothing. -/
theorem Inv.pop (h : Inv s l) (hpc : s.pc t = .out) : Inv (s.goto t .lock) l := by
  have hfront := h.front_quiet (t := t) (p := .lock) (r := s.goto t .lock) (by rw [hpc]; rfl) rfl []
    (by simp) rfl (fun _ _ _ _ _ => rfl) fun _ => rfl
  rw [List.append_nil] at hfront
  exact h.walk rfl ⟨rfl, rfl, rfl, rfl⟩ rfl rfl (fun v hv => by cases hv) ⟨by rw [hpc]; rfl, rfl⟩
    (fun first rest hp => by cases hp) (lock_same h.lock rfl (by rw [hpc]; rfl)) hfront h.line h.marked

/-- STEP: the lock is taken. -/
theorem Inv.lock_step (h : Inv s l) (hpc : s.pc t = .lock) (hlock : s.lock = none) :
    Inv (State.goto { s with lock := some t } t .check) l := by
  refine h.walk rfl ⟨rfl, rfl, rfl, rfl⟩ rfl rfl (fun v hv => by cases hv) ⟨by rw [hpc]; rfl, rfl⟩
    (fun first rest hp => by cases hp) (lock_taken hlock rfl rfl)
    ⟨⟨fun _ => h.whole hlock, fun u _ hu => ?_⟩, fun hfree => by cases hfree⟩ h.line h.marked
  rw [hlock] at hu
  cases hu

/-- The lock is released. -/
theorem Inv.release (h : Inv s l) (ht : (s.pc t).locked = true) (hwhole : Whole s l)
    (hpc : s'.pc = Function.update s.pc t p) (hlock : s'.lock = none) (hp : p.locked = false)
    (hsame : s'.next = s.next ∧ s'.owner = s.owner ∧ s'.pushed = s.pushed ∧ s'.popped = s.popped)
    (hrest : s'.tail = s.tail ∧ s'.head = s.head)
    (hnode : ∀ v, p.node = some v → (s.pc t).node = some v)
    (howes : (s.pc t).owes = none ∧ p.owes = none) (hsegment : ∀ first rest, p ≠ .swing first rest) :
    Inv s' l := by
  have hmine := (h.lock t).mp ht
  have hother : ∀ u, u ≠ t → s.lock ≠ some u := by
    intro u hu hlock
    rw [hmine] at hlock
    exact hu (Option.some.inj hlock).symm
  refine h.walk hpc hsame (by rw [hrest.1]) rfl hnode howes hsegment
    (lock_released h.lock ht hlock hp)
    ⟨⟨fun hmine => ?_, fun u hu hlock => absurd hlock (hother u hu)⟩, fun _ => ?_⟩ h.line
    (by rw [hrest.1]; exact h.marked)
  · rw [hlock] at hmine
    cases hmine
  · exact ⟨by rw [hrest.2]; exact hwhole.1, hwhole.2⟩

/-- STEP: `pop` returns null. -/
theorem Inv.leave (h : Inv s l) (hpc : s.pc t = .leave) :
    Inv (State.returns { s with lock := none } t (.popped none)) l := by
  have ht : (s.pc t).locked = true := by rw [hpc]; rfl
  have hfront := h.front_of ht
  rw [hpc] at hfront
  exact h.release ht hfront rfl rfl rfl ⟨rfl, rfl, rfl, rfl⟩ ⟨rfl, rfl⟩ (fun v hv => by cases hv)
    ⟨by rw [hpc]; rfl, rfl⟩ fun first rest hp => by cases hp

/-- STEP: the lock is released. -/
theorem Inv.unlock {v : Node N} (h : Inv s l) (hpc : s.pc t = .unlock v) :
    Inv (State.goto { s with lock := none } t (.clear v)) l := by
  have ht : (s.pc t).locked = true := by rw [hpc]; rfl
  have hfront := h.front_of ht
  rw [hpc] at hfront
  exact h.release ht hfront rfl rfl rfl ⟨rfl, rfl, rfl, rfl⟩ ⟨rfl, rfl⟩
    (fun w hw => by rw [hpc]; exact hw) ⟨by rw [hpc]; rfl, rfl⟩ fun first rest hp => by cases hp

/-- A step within the lock section that touches no node. -/
theorem Inv.stay (h : Inv s l) (ht : (s.pc t).locked = true) (hp : p.locked = true)
    (hpc : s'.pc = Function.update s.pc t p)
    (hsame : s'.next = s.next ∧ s'.owner = s.owner ∧ s'.pushed = s.pushed ∧ s'.popped = s.popped)
    (hlock : s'.lock = s.lock) (htail : s'.tail.node = s.tail.node) (helems : elems l' = elems l)
    (hnode : ∀ v, p.node = some v → (s.pc t).node = some v)
    (howes : (s.pc t).owes = none ∧ p.owes = none) (hfront : Front s' l' p)
    (hline : Line s.next (some s.tail.node) (fun u => (s.pc u).owes) l')
    (hmarked : s'.tail.marked = true → l' = [.stub]) : Inv s' l' := by
  refine h.walk hpc hsame htail helems hnode howes (fun first rest hsw => ?_)
    (lock_same h.lock hlock (hp.trans ht.symm)) (h.front_held ht hlock hfront) hline hmarked
  rw [hsw] at hp
  cases hp

omit [DecidableEq T] in
/-- The first node stands in front of the others. -/
theorem Whole.cons {v : Node N} (h : Whole s l) (hhead : s.head = some v) : ∃ k, l = v :: k := by
  have hv := h.1.symm.trans hhead
  cases l with
  | nil => cases hv
  | cons x k => exact ⟨k, by rw [Option.some.inj hv]⟩

/-- STEP: the test on `head`. -/
theorem Inv.check [DecidableEq N] (h : Inv s l) (hpc : s.pc t = .check) :
    Inv (s.goto t (if s.head = some .stub then .test else .loadHead)) l := by
  have ht : (s.pc t).locked = true := by rw [hpc]; rfl
  have hfront := h.front_of ht
  rw [hpc] at hfront
  split_ifs with hhead
  · exact h.stay ht rfl rfl ⟨rfl, rfl, rfl, rfl⟩ rfl rfl rfl (fun v hv => by cases hv)
      ⟨by rw [hpc]; rfl, rfl⟩ ⟨hfront, hhead⟩ h.line h.marked
  · exact h.stay ht rfl rfl ⟨rfl, rfl, rfl, rfl⟩ rfl rfl rfl (fun v hv => by cases hv)
      ⟨by rw [hpc]; rfl, rfl⟩ ⟨hfront, hhead⟩ h.line h.marked

omit [DecidableEq T] in
/-- Where `head` and `tail` are at the stub there is nothing else. -/
theorem Inv.only_stub (h : Inv s l) (hpc : s.pc t = .test) (htail : s.tail.node = .stub) :
    l = [.stub] := by
  have hfront := h.front_of (t := t) (by rw [hpc]; rfl)
  rw [hpc] at hfront
  obtain ⟨k, rfl⟩ := hfront.1.cons hfront.2
  have hline := h.line
  rw [htail] at hline
  rw [hline.sole]

/-- STEP: the test on the tail. -/
theorem Inv.test [DecidableEq N] {blocking : Bool} (h : Inv s l) (hpc : s.pc t = .test)
    (hplain : blocking = false → s.tail.marked = false) : Inv (QueueStub.test blocking s t) l := by
  have ht : (s.pc t).locked = true := by rw [hpc]; rfl
  have hfront := h.front_of ht
  rw [hpc] at hfront
  -- a tail that is neither the stub nor marked is at an element
  have hwait : s.tail ≠ ⟨.stub, false⟩ → s.tail.marked = false → Inv (s.goto t .waitStub) l := by
    intro htail hmark
    refine h.stay ht rfl rfl ⟨rfl, rfl, rfl, rfl⟩ rfl rfl rfl (fun v hv => by cases hv)
      ⟨by rw [hpc]; rfl, rfl⟩ ⟨hfront.1, hfront.2, ?_⟩ h.line h.marked
    rintro rfl
    have hlast := h.line.last
    rw [List.getLast?_singleton, Option.some.injEq] at hlast
    refine htail ?_
    rw [← hlast, ← hmark]
  rw [QueueStub.test]
  split_ifs with hblocking htail hmark htail
  · exact h.stay ht rfl rfl ⟨rfl, rfl, rfl, rfl⟩ rfl (by rw [htail]; rfl) rfl
      (fun v hv => by cases hv) ⟨by rw [hpc]; rfl, rfl⟩ hfront.1 h.line
      fun _ => h.only_stub hpc (by rw [htail])
  · exact h.stay ht rfl rfl ⟨rfl, rfl, rfl, rfl⟩ rfl rfl rfl (fun v hv => by cases hv)
      ⟨by rw [hpc]; rfl, rfl⟩ hfront.1 h.line h.marked
  · exact hwait htail (by simpa using hmark)
  · exact h.stay ht rfl rfl ⟨rfl, rfl, rfl, rfl⟩ rfl rfl rfl (fun v hv => by cases hv)
      ⟨by rw [hpc]; rfl, rfl⟩ hfront.1 h.line h.marked
  · exact hwait htail (hplain (by simpa using hblocking))

/-- STEP: the link of the stub has been made. -/
theorem Inv.waitStub (h : Inv s l) (hpc : s.pc t = .waitStub) (hn : s.next .stub ≠ none) :
    Inv (s.goto t .readStub) l := by
  have ht : (s.pc t).locked = true := by rw [hpc]; rfl
  have hfront := h.front_of ht
  rw [hpc] at hfront
  exact h.stay ht rfl rfl ⟨rfl, rfl, rfl, rfl⟩ rfl rfl rfl (fun v hv => by cases hv)
    ⟨by rw [hpc]; rfl, rfl⟩ ⟨hfront.1, hfront.2.1, hn⟩ h.line h.marked

/-- STEP: the stub leaves the line. -/
theorem Inv.readStub (h : Inv s l) (hpc : s.pc t = .readStub) :
    ∃ l', Inv (s.goto t (.setStub (s.next .stub))) l' := by
  have ht : (s.pc t).locked = true := by rw [hpc]; rfl
  have hfront := h.front_of ht
  rw [hpc] at hfront
  obtain ⟨hwhole, hhead, hnext⟩ := hfront
  obtain ⟨k, rfl⟩ := hwhole.cons hhead
  obtain ⟨n, hn⟩ := Option.ne_none_iff_exists'.mp hnext
  have hk : k ≠ [] := by
    rintro rfl
    cases h.line.head?_eq hn
  refine ⟨k, h.stay ht rfl rfl ⟨rfl, rfl, rfl, rfl⟩ rfl rfl rfl (fun v hv => by cases hv)
    ⟨by rw [hpc]; rfl, rfl⟩ ⟨?_, hk, (List.nodup_cons.mp h.line.nodup).1, hhead⟩ (h.line.pop hn)
    fun hm => ?_⟩
  · rw [h.line.head?_eq hn, hn]
  · exact absurd (List.cons.inj (h.marked hm)).2 hk

/-- STEP: `head` takes the link of the stub. -/
theorem Inv.setStub {next : Option (Node N)} (h : Inv s l) (hpc : s.pc t = .setStub next) :
    Inv (State.goto { s with head := next } t .clearStub) l := by
  have ht : (s.pc t).locked = true := by rw [hpc]; rfl
  have hfront := h.front_of ht
  rw [hpc] at hfront
  exact h.stay ht rfl rfl ⟨rfl, rfl, rfl, rfl⟩ rfl rfl rfl (fun v hv => by cases hv)
    ⟨by rw [hpc]; rfl, rfl⟩ ⟨hfront.1, hfront.2.1, hfront.2.2.1⟩ h.line h.marked

/-- STEP: the link of the stub is cleared. -/
theorem Inv.clearStub [DecidableEq N] (h : Inv s l) (hpc : s.pc t = .clearStub) :
    Inv (State.goto { s with next := Function.update s.next .stub none } t .reSwing) l := by
  have ht : (s.pc t).locked = true := by rw [hpc]; rfl
  have hfront := h.front_of ht
  rw [hpc] at hfront
  obtain ⟨hhead, hl, hstub⟩ := hfront
  have hother : ∀ n, Function.update s.next .stub none (.elem n) = s.next (.elem n) := fun n =>
    Function.update_of_ne (by simp) ..
  have hnull : Function.update s.next .stub none .stub = none := Function.update_self ..
  have hfront' := h.front_held (p := .reSwing) (r := State.goto { s with
    next := Function.update s.next .stub none } t .reSwing) ht rfl
    ⟨hhead, hl, hstub, hnull⟩
  refine h.move rfl h.history h.queued (fun n hn => (hother n).trans (h.free n hn))
    (fun n u _ => ⟨id, fun hn => ⟨hn, hother n⟩⟩) (fun v hv => by cases hv)
    (fun first rest hp => by cases hp) (lock_same h.lock rfl (by rw [hpc]; rfl)) hfront'.1 hfront'.2 ?_
    h.marked
  rw [kept (f := Pc.owes) (by rw [hpc]; rfl)]
  refine h.line.congr fun a ha => Function.update_of_ne ?_ ..
  rintro rfl
  exact hstub ha

/-- STEP: the stub is appended again. -/
theorem Inv.reSwing (h : Inv s l) (hpc : s.pc t = .reSwing) :
    Inv (State.goto { s with tail := ⟨.stub, false⟩ } t (.reLink s.tail.node)) (l ++ [.stub]) := by
  have ht : (s.pc t).locked = true := by rw [hpc]; rfl
  have hfront := h.front_of ht
  rw [hpc] at hfront
  obtain ⟨hhead, hl, hstub, hnull⟩ := hfront
  have hlast := h.line.append (t := t) (k := [.stub]) (b := .stub) (by rw [hpc]; rfl) rfl
    (List.nodup_singleton _) (fun x hx => by rw [List.mem_singleton.mp hx]; exact hstub)
    (fun x y hxy => ?_) fun z hz => ?_
  · have hfront' := h.front_held (p := .reLink s.tail.node) (k := l ++ [.stub]) (r := State.goto
      { s with tail := ⟨.stub, false⟩ } t (.reLink s.tail.node)) ht rfl ⟨⟨?_, by simp⟩, ?_⟩
    · have helems : elems (l ++ [.stub]) = elems l := by simp [elems]
      have hqueued : ∀ n, s.owner n = .queued ↔ .elem n ∈ l ++ [.stub] := fun n => by
        simpa using h.queued n
      exact h.move rfl (by rw [helems]; exact h.history) hqueued h.free
        (fun n u _ => ⟨id, fun hn => ⟨hn, rfl⟩⟩) (fun v hv => by cases hv)
        (fun first rest hp => by cases hp) (lock_same h.lock rfl (by rw [hpc]; rfl)) hfront'.1 hfront'.2
        hlast fun hm => by cases hm
    · exact hhead.trans (List.head?_append_of_ne_nil _ hl).symm
    · intro hs
      exact hstub (List.mem_of_head? (hhead.symm.trans hs))
  · rcases adj_cons.mp hxy with ⟨-, hy⟩ | hy
    · cases hy
    · exact (adj_nil hy).elim
  · rw [← Option.some.inj hz]
    exact hnull

/-- STEP: the stub is linked again. -/
theorem Inv.reLink [DecidableEq N] {prev : Node N} (h : Inv s l) (hpc : s.pc t = .reLink prev) :
    Inv (State.goto { s with next := Function.update s.next prev (some .stub) } t .loadHead) l := by
  have ht : (s.pc t).locked = true := by rw [hpc]; rfl
  have hfront := h.front_of ht
  rw [hpc] at hfront
  exact h.link (by rw [hpc]; rfl) rfl rfl ⟨rfl, rfl, rfl⟩ rfl rfl rfl (fun first rest hp => by cases hp)
    (lock_same h.lock rfl (by rw [hpc]; rfl)) (h.front_held ht rfl hfront)

/-- STEP: the lock section only looks. -/
theorem Inv.look (h : Inv s l) (ht : (s.pc t).locked = true) (hp : p.locked = true)
    (hnode : p.node = none) (howes : (s.pc t).owes = none ∧ p.owes = none)
    (hfront : Front s l p) : Inv (s.goto t p) l := by
  refine h.stay ht hp rfl ⟨rfl, rfl, rfl, rfl⟩ rfl rfl rfl (fun v hv => by rw [hnode] at hv; cases hv)
    howes ?_ h.line h.marked
  cases p <;> exact hfront

/-- STEP: the first node is taken, its successor being linked. -/
theorem Inv.readNext [DecidableEq N] {v w : Node N} (h : Inv s l) (hpc : s.pc t = .readNext v w) :
    ∃ l', Inv (State.goto { s with
      popped := s.popped ++ [v]
      took := Function.update s.took t (some v)
      owner := giveTo s.owner v (.popping t) } t (.setHead v (s.next w))) l' := by
  have ht : (s.pc t).locked = true := by rw [hpc]; rfl
  have hfront := h.front_of ht
  rw [hpc] at hfront
  obtain ⟨hwhole, hhead, hv, hnext, rfl⟩ := hfront
  obtain ⟨k, rfl⟩ := hwhole.cons hhead
  obtain ⟨n, hn⟩ := Option.ne_none_iff_exists'.mp hnext
  cases w with
  | stub => exact absurd rfl hv
  | elem m =>
    have hm : .elem m ∉ k := (List.nodup_cons.mp h.line.nodup).1
    have hqueued : s.owner m = .queued := (h.queued m).mpr (List.mem_cons_self ..)
    have hother : ∀ i, s.owner i ≠ .queued →
        Function.update s.owner m (.popping t) i = s.owner i := by
      intro i hi
      refine Function.update_of_ne ?_ ..
      rintro rfl
      exact hi hqueued
    have hstub : .stub ∈ k := (List.mem_cons.mp hwhole.2).resolve_left (by simp)
    have hfront' := h.front_held (p := .setHead (.elem m) (s.next (.elem m))) (k := k) (r := State.goto
      { s with
        popped := s.popped ++ [.elem m]
        took := Function.update s.took t (some (.elem m))
        owner := giveTo s.owner (.elem m) (.popping t) } t (.setHead (.elem m) (s.next (.elem m)))) ht rfl
      ⟨by rw [h.line.head?_eq hn, hn], hstub, hhead, by rw [h.line.head?_eq hn]; exact hn⟩
    refine ⟨k, h.move rfl ?_ (fun i => ?_) (fun i hi => ?_)
      (fun i u hu => ⟨fun hi => ?_, fun hi => ?_⟩) (fun v hv => ?_)
      (fun first rest hp => by cases hp) (lock_same h.lock rfl (by rw [hpc]; rfl)) hfront'.1 hfront'.2 ?_
      fun hmark => ?_⟩
    · show s.pushed.map Node.elem = s.popped ++ [.elem m] ++ (elems k).map Node.elem
      rw [h.history, List.append_assoc]
      rfl
    · show Function.update s.owner m (.popping t) i = .queued ↔ .elem i ∈ k
      rcases eq_or_ne i m with rfl | hne
      · rw [Function.update_self]
        exact iff_of_false (by simp) hm
      · rw [Function.update_of_ne hne, h.queued, List.mem_cons]
        exact ⟨fun hi => hi.resolve_left fun heq => hne (Node.elem.inj heq), .inr⟩
    · have hset : Function.update s.owner m (.popping t) i = .free := hi
      have hne : i ≠ m := by
        rintro rfl
        rw [Function.update_self] at hset
        cases hset
      rw [Function.update_of_ne hne] at hset
      exact h.free i hset
    · exact (hother i (by rw [hi]; simp)).trans hi
    · exact ⟨(hother i (by rw [hi]; simp)).trans hi, rfl⟩
    · obtain rfl := Option.some.inj hv
      exact ⟨m, rfl, Function.update_self ..⟩
    · rw [kept (f := Pc.owes) (by rw [hpc]; rfl)]
      exact h.line.pop hn
    · have hone := h.marked hmark
      rw [List.cons.injEq] at hone
      exact absurd hone.1 (by simp)

/-- STEP: `head` takes the link of the node. -/
theorem Inv.setHead {v : Node N} {next : Option (Node N)} (h : Inv s l)
    (hpc : s.pc t = .setHead v next) : Inv (State.goto { s with head := next } t (.unlock v)) l := by
  have ht : (s.pc t).locked = true := by rw [hpc]; rfl
  have hfront := h.front_of ht
  rw [hpc] at hfront
  exact h.stay ht rfl rfl ⟨rfl, rfl, rfl, rfl⟩ rfl rfl rfl (fun w hw => by rw [hpc]; exact hw)
    ⟨by rw [hpc]; rfl, rfl⟩ ⟨hfront.1, hfront.2.1⟩ h.line h.marked

/-- STEP: `pop` returns the node, its link being cleared. -/
theorem Inv.clear [DecidableEq N] {v : Node N} (h : Inv s l) (hpc : s.pc t = .clear v) :
    Inv (State.returns { s with
      next := Function.update s.next v none
      owner := giveTo s.owner v .free } t (.popped (some v))) l := by
  obtain ⟨m, rfl, hm⟩ := h.node t v (by rw [hpc]; rfl)
  have hml : .elem m ∉ l := h.mem_line (by rw [hm]; simp)
  have hne : ∀ n, s.owner n ≠ .popping t → n ≠ m := by
    rintro n hn rfl
    exact hn hm
  have hother : ∀ n, n ≠ m → Function.update s.next (.elem m) none (.elem n) = s.next (.elem n) :=
    fun n hn => Function.update_of_ne (fun heq => hn (Node.elem.inj heq)) ..
  have hline : ∀ a ∈ l, Function.update s.next (.elem m) none a = s.next a := by
    intro a ha
    refine Function.update_of_ne ?_ ..
    rintro rfl
    exact hml ha
  have hstub : Function.update s.next (.elem m) none .stub = s.next .stub :=
    Function.update_of_ne (by simp) ..
  have hfront := h.front_quiet (t := t) (p := .out) (r := State.returns { s with
      next := Function.update s.next (.elem m) none
      owner := giveTo s.owner (.elem m) .free } t (.popped (some (.elem m))))
    (by rw [hpc]; rfl) rfl [] (by simp) rfl (fun u a hu ha _ => ?_)
    fun _ => hstub
  swap
  · rcases ha with ha | ha
    · exact hline a ha
    · obtain ⟨n, rfl, hn⟩ := h.node u a ha
      exact hother n (hne n (by rw [hn]; simpa using hu))
  rw [List.append_nil] at hfront
  refine h.move rfl h.history (fun n => ?_) (fun n hn => ?_)
    (fun n u hu => ⟨fun hn => ?_, fun hn => ?_⟩) (fun v hv => by cases hv)
    (fun first rest hp => by cases hp) (lock_same h.lock rfl (by rw [hpc]; rfl)) hfront.1 hfront.2 ?_ h.marked
  · show Function.update s.owner m .free n = .queued ↔ .elem n ∈ l
    rcases eq_or_ne n m with rfl | hnm
    · rw [Function.update_self]
      exact iff_of_false (by simp) hml
    · rw [Function.update_of_ne hnm]
      exact h.queued n
  · show Function.update s.next (.elem m) none (.elem n) = none
    rcases eq_or_ne n m with rfl | hnm
    · exact Function.update_self ..
    · have hset : Function.update s.owner m .free n = .free := hn
      rw [Function.update_of_ne hnm] at hset
      exact (hother n hnm).trans (h.free n hset)
  · exact (Function.update_of_ne (hne n (by rw [hn]; simpa using hu)) ..).trans hn
  · have hnm := hne n (by rw [hn]; simp)
    exact ⟨(Function.update_of_ne hnm ..).trans hn, hother n hnm⟩
  · rw [kept (f := Pc.owes) (by rw [hpc]; rfl)]
    exact h.line.congr hline

/-! ### Every run -/

section Runs
variable [DecidableEq N] {blocking : Bool}

/-- INVARIANT: the mark says that no push has followed the last test that left it. -/
structure Marks (blocking : Bool) (s : State N T) : Prop where
  plain : blocking = false → s.tail.marked = false
  fresh : s.fresh = s.tail.marked
  due : ∀ t prev first empty, s.pc t = .link prev first empty → empty = s.due t

/-- STEP. -/
theorem Inv.next (h : Inv s l) (hplain : blocking = false → s.tail.marked = false)
    (hs : QueueStub.next blocking s t = some s') : ∃ l', Inv s' l' := by
  have hlocked : ∀ {p : Pc N}, s.pc t = p → p.locked = true → (s.pc t).locked = true := by
    rintro p rfl hp
    exact hp
  unfold QueueStub.next at hs
  split at hs
  · cases hs
  · obtain rfl := Option.some.inj hs
    exact ⟨_, h.swing ‹_›⟩
  · obtain rfl := Option.some.inj hs
    exact ⟨_, h.linkPush ‹_›⟩
  · obtain ⟨hlock, hs⟩ := Option.ite_none_right_eq_some.mp hs
    obtain rfl := Option.some.inj hs
    exact ⟨_, h.lock_step ‹_› hlock⟩
  · obtain rfl := Option.some.inj hs
    exact ⟨_, h.check ‹_›⟩
  · obtain rfl := Option.some.inj hs
    exact ⟨_, h.test ‹_› hplain⟩
  · obtain rfl := Option.some.inj hs
    exact ⟨_, h.leave ‹_›⟩
  · obtain rfl := Option.some.inj hs
    split_ifs with hn
    · exact ⟨_, h⟩
    · exact ⟨_, h.waitStub ‹_› hn⟩
  · obtain rfl := Option.some.inj hs
    exact h.readStub ‹_›
  · obtain rfl := Option.some.inj hs
    exact ⟨_, h.setStub ‹_›⟩
  · obtain rfl := Option.some.inj hs
    exact ⟨_, h.clearStub ‹_›⟩
  · obtain rfl := Option.some.inj hs
    exact ⟨_, h.reSwing ‹_›⟩
  · obtain rfl := Option.some.inj hs
    exact ⟨_, h.reLink ‹_›⟩
  case h_14 hpc =>
    obtain ⟨v, hv, rfl⟩ := Option.map_eq_some_iff.mp hs
    have hfront := h.front_of (hlocked hpc rfl)
    rw [hpc] at hfront
    obtain ⟨hwhole, hstub⟩ := hfront
    refine ⟨_, h.look (hlocked hpc rfl) rfl rfl ⟨by rw [hpc]; rfl, rfl⟩ ⟨hwhole, hv, ?_⟩⟩
    rintro rfl
    exact hstub hv
  case h_15 r hpc =>
    obtain ⟨v, hv, rfl⟩ := Option.map_eq_some_iff.mp hs
    have hfront := h.front_of (hlocked hpc rfl)
    rw [hpc] at hfront
    obtain ⟨hwhole, hhead, hstub⟩ := hfront
    exact ⟨_, h.look (hlocked hpc rfl) rfl rfl ⟨by rw [hpc]; rfl, rfl⟩
      ⟨hwhole, hhead, hstub, Option.some.inj (hv.symm.trans hhead)⟩⟩
  case h_16 r v hpc =>
    obtain rfl := Option.some.inj hs
    have hfront := h.front_of (hlocked hpc rfl)
    rw [hpc] at hfront
    obtain ⟨hwhole, hhead, hstub, rfl⟩ := hfront
    split_ifs with hn
    · exact ⟨_, h.look (hlocked hpc rfl) rfl rfl ⟨by rw [hpc]; rfl, rfl⟩ ⟨hwhole, hhead, hstub⟩⟩
    · exact ⟨_, h.look (hlocked hpc rfl) rfl rfl ⟨by rw [hpc]; rfl, rfl⟩ ⟨hwhole, hhead, hstub, hn⟩⟩
  case h_17 r hpc =>
    obtain ⟨v, hv, rfl⟩ := Option.map_eq_some_iff.mp hs
    have hfront := h.front_of (hlocked hpc rfl)
    rw [hpc] at hfront
    obtain ⟨hwhole, hhead, hstub, hn⟩ := hfront
    exact ⟨_, h.look (hlocked hpc rfl) rfl rfl ⟨by rw [hpc]; rfl, rfl⟩
      ⟨hwhole, hhead, hstub, hn, Option.some.inj (hv.symm.trans hhead)⟩⟩
  · obtain rfl := Option.some.inj hs
    exact h.readNext ‹_›
  · obtain rfl := Option.some.inj hs
    exact ⟨_, h.setHead ‹_›⟩
  · obtain rfl := Option.some.inj hs
    exact ⟨_, h.unlock ‹_›⟩
  · obtain rfl := Option.some.inj hs
    exact ⟨_, h.clear ‹_›⟩

omit [DecidableEq N] in
theorem Marks.goto (h : Marks blocking s) (hpc : s'.pc = Function.update s.pc t p)
    (hsame : s'.tail = s.tail ∧ s'.fresh = s.fresh ∧ s'.due = s.due)
    (hp : ∀ prev first empty, p ≠ .link prev first empty) : Marks blocking s' := by
  obtain ⟨htail, hfresh, hdue⟩ := hsame
  refine ⟨by rw [htail]; exact h.plain, by rw [htail, hfresh]; exact h.fresh,
    fun u prev first empty hu => ?_⟩
  rw [hpc] at hu
  rcases eq_or_ne u t with rfl | hne
  · rw [Function.update_self] at hu
    exact absurd hu (hp prev first empty)
  · rw [Function.update_of_ne hne] at hu
    rw [hdue]
    exact h.due u prev first empty hu

/-- A push has swung the tail. -/
theorem Marks.swing {first : N} {rest : List N} (h : Marks blocking s) :
    Marks blocking (State.goto { s with
      tail := ⟨.elem ((first :: rest).getLast (List.cons_ne_nil first rest)), false⟩
      pushed := s.pushed ++ first :: rest
      owner := updateAll s.owner (first :: rest) .queued
      fresh := false
      due := Function.update s.due t s.fresh } t (.link s.tail.node first (s.tail.empty blocking))) := by
  refine ⟨fun _ => rfl, rfl, fun u prev first' empty hu => ?_⟩
  simp only [State.goto] at hu ⊢
  rcases eq_or_ne u t with rfl | hne
  · rw [Function.update_self, Pc.link.injEq] at hu
    rw [Function.update_self, ← hu.2.2, h.fresh, Tail.empty]
    cases blocking with
    | false => rw [h.plain rfl]; rfl
    | true => exact Bool.true_and _
  · rw [Function.update_of_ne hne] at hu ⊢
    exact h.due u prev first' empty hu

omit [DecidableEq N] in
/-- A pop has swung the tail to the stub. -/
theorem Marks.reSwing (h : Marks blocking s) (hI : Inv s l) (hpc : s.pc t = .reSwing) :
    Marks blocking (State.goto { s with tail := ⟨.stub, false⟩ } t (.reLink s.tail.node)) := by
  have hfront := hI.front_of (t := t) (by rw [hpc]; rfl)
  rw [hpc] at hfront
  have hplain : s.tail.marked = false := by
    by_contra hmark
    rw [hI.marked (by simpa using hmark)] at hfront
    exact hfront.2.2.1 (List.mem_singleton_self _)
  have hgoto : Marks blocking (s.goto t (.reLink s.tail.node)) :=
    h.goto rfl ⟨rfl, rfl, rfl⟩ fun prev first empty hp => by cases hp
  exact ⟨fun _ => rfl, h.fresh.trans hplain, hgoto.due⟩

theorem Marks.test (h : Marks blocking s) : Marks blocking (QueueStub.test blocking s t) := by
  have hgoto : ∀ p : Pc N, (∀ prev first empty, p ≠ .link prev first empty) →
      Marks blocking (s.goto t p) := fun p hp => h.goto rfl ⟨rfl, rfl, rfl⟩ hp
  rw [QueueStub.test]
  split_ifs with hblocking htail hmark htail
  · exact ⟨fun hplain => (by rw [hblocking] at hplain; cases hplain), rfl, (hgoto .leave (by simp)).due⟩
  · exact h.goto rfl ⟨rfl, rfl, rfl⟩ (by simp)
  · exact hgoto _ (by simp)
  · exact h.goto rfl ⟨rfl, rfl, rfl⟩ (by simp)
  · exact hgoto _ (by simp)

theorem Marks.next (h : Marks blocking s) (hI : Inv s l)
    (hs : QueueStub.next blocking s t = some s') : Marks blocking s' := by
  unfold QueueStub.next at hs
  split at hs
  case h_1 => cases hs
  case h_2 =>
    obtain rfl := Option.some.inj hs
    exact h.swing
  case h_4 =>
    obtain ⟨-, hs⟩ := Option.ite_none_right_eq_some.mp hs
    obtain rfl := Option.some.inj hs
    exact h.goto rfl ⟨rfl, rfl, rfl⟩ (by simp)
  case h_5 =>
    obtain rfl := Option.some.inj hs
    refine h.goto rfl ⟨rfl, rfl, rfl⟩ ?_
    split_ifs <;> simp
  case h_6 =>
    obtain rfl := Option.some.inj hs
    exact h.test
  case h_8 =>
    obtain rfl := Option.some.inj hs
    split_ifs
    · exact h
    · exact h.goto rfl ⟨rfl, rfl, rfl⟩ (by simp)
  case h_12 hpc =>
    obtain rfl := Option.some.inj hs
    exact h.reSwing hI hpc
  case h_14 | h_15 | h_17 =>
    obtain ⟨v, hv, rfl⟩ := Option.map_eq_some_iff.mp hs
    exact h.goto rfl ⟨rfl, rfl, rfl⟩ (by simp)
  case h_16 =>
    obtain rfl := Option.some.inj hs
    refine h.goto rfl ⟨rfl, rfl, rfl⟩ ?_
    split_ifs <;> simp
  all_goals
    obtain rfl := Option.some.inj hs
    exact h.goto rfl ⟨rfl, rfl, rfl⟩ (by simp)

omit [DecidableEq N] [DecidableEq T] in
theorem Inv.init (blocking : Bool) : Inv (State.init blocking : State N T) [.stub] := by
  refine ⟨rfl, fun n => iff_of_false (by simp [State.init]) (by simp), fun n _ => rfl,
    fun t v hv => (by cases hv), fun t first rest hp => (by cases hp),
    fun t => by simp [State.init, Pc.locked], fun t ht => (by cases ht),
    fun _ => ⟨rfl, List.mem_singleton_self _⟩, ?_, fun _ => rfl⟩
  exact Line.nil.start (List.nodup_singleton _) (fun x y hxy => by
    rcases adj_cons.mp hxy with ⟨-, hy⟩ | hy
    · cases hy
    · exact (adj_nil hy).elim) fun z _ => rfl

/-- INVARIANT of every reachable state. -/
theorem inv_reach (h : Reach (system blocking N T) s) : (∃ l, Inv s l) ∧ Marks blocking s := by
  refine h.inv (I := fun s => (∃ l, Inv s l) ∧ Marks blocking s) (fun s hs => ?_)
    fun s a s' ⟨⟨l, hI⟩, hM⟩ hs => ?_
  · obtain rfl := hs
    exact ⟨⟨_, .init blocking⟩, fun hplain => hplain, rfl, fun t prev first empty ht => by cases ht⟩
  · cases a with
    | push t first rest =>
      obtain ⟨⟨hpc, hnodup, hfree⟩, hs⟩ := Option.ite_none_right_eq_some.mp hs
      obtain rfl := Option.some.inj hs
      exact ⟨⟨_, hI.push hpc hnodup hfree⟩, hM.goto rfl ⟨rfl, rfl, rfl⟩ (by simp)⟩
    | pop t =>
      obtain ⟨hpc, hs⟩ := Option.ite_none_right_eq_some.mp hs
      obtain rfl := Option.some.inj hs
      exact ⟨⟨_, hI.pop hpc⟩, hM.goto rfl ⟨rfl, rfl, rfl⟩ (by simp)⟩
    | next t => exact ⟨hI.next hM.plain hs, hM.next hI hs⟩

end Runs

end Steps

end Libfibre.QueueStub
