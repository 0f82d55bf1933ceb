import Mathlib.Tactic.SplitIfs
import Libfibre.Schemes.LinkedList
import Libfibre.Schemes.Threads
import Libfibre.LockFreeQueues.Nemesis

/-! `QueueNemesis` is a FIFO queue. Every element that has been pushed and not popped is in a line of nodes
    that are linked or about to be linked; the line may start with the element that some thread is
    popping. `head` is the first of the queue, unless one thread is about to make it so. -/

namespace Libfibre.QueueNemesis
open Transition LinkedList Threads

variable {N T : Type}

/-! ### What a thread has in hand -/

/-- The link that a thread still has to make. -/
def Pc.owes : Pc N → Option (N × N)
  | .link (some prev) first => some (prev, first)
  | _ => none

/-- The element that a thread is popping. -/
def Pc.elem : Pc N → Option N
  | .loadNext e | .setHead e _ | .unlock e _ | .clear e | .cas e | .wait e | .read e | .invalidate e _
  | .fixHead e _ => some e
  | _ => none

def Pc.locked : Pc N → Bool
  | .load | .leave | .loadNext _ | .setHead .. | .unlock .. => true
  | _ => false

/-- The thread that has to set `head`. -/
def Pc.leads : Pc N → Bool
  | .link none _ | .loadNext _ | .setHead .. | .unlock _ none | .cas _ | .wait _ | .read _
  | .invalidate .. | .fixHead .. => true
  | _ => false

/-- The element whose link the thread relies on. -/
def Pc.reliesOn : Pc N → Option N
  | .read e | .fixHead e _ => some e
  | _ => none

/-- Where the thread that leads finds the first of the queue `q`; `l` is the line. -/
def Front (s : State N T) (q l : List N) : Pc N → Prop
  | .link none first => s.head = none ∧ q.head? = some first ∧ l = q
  | .loadNext e | .setHead e none => s.head = some e ∧ l = e :: q
  | .setHead e (some n) => s.head = some e ∧ q.head? = some n ∧ l = q
  | .unlock e none | .cas e => s.head = none ∧ l = e :: q
  | .wait e => s.head = none ∧ l = e :: q ∧ q ≠ []
  | .read e => s.head = none ∧ l = e :: q ∧ q ≠ [] ∧ s.next e = q.head?
  | .invalidate _ next => s.head = none ∧ l = q ∧ q ≠ [] ∧ next = q.head?
  | .fixHead e next => s.head = none ∧ l = q ∧ q ≠ [] ∧ next = q.head? ∧ s.next e = none
  | _ => False

/-- What the caller of `push` has made ready. -/
structure Segment (s : State N T) (t : T) (k : List N) : Prop where
  nodup : k.Nodup
  owned : ∀ n ∈ k, s.owner n = .pushing t
  links : ∀ a b, Adj k a b → s.next a = some b
  ends : ∀ z, k.getLast? = some z → s.next z = none

/-- INVARIANT: the queue is `q` and the line is `l`. -/
structure Inv (s : State N T) (q l : List N) : Prop where
  history : s.pushed = s.popped ++ q
  queued : ∀ n, s.owner n = .queued ↔ n ∈ q
  free : ∀ n, s.owner n = .free → s.next n = none
  elem : ∀ t e, (s.pc t).elem = some e → s.owner e = .popping t
  segment : ∀ t first rest, s.pc t = .swing first rest → Segment s t (first :: rest)
  lock : ∀ t, (s.pc t).locked = true ↔ s.lock = some t
  leader : ∀ t u, (s.pc t).leads = true → (s.pc u).leads = true → t = u
  front : (∃ t, Front s q l (s.pc t)) ∨ (∀ t, (s.pc t).leads = false) ∧ s.head = q.head? ∧ l = q
  line : Line s.next s.tail (fun t => (s.pc t).owes) l

theorem Front.leads {s : State N T} {q l : List N} : ∀ {p : Pc N}, Front s q l p → p.leads = true
  | .link none _, _ | .loadNext _, _ | .setHead _ none, _ | .setHead _ (some _), _
  | .unlock _ none, _ | .cas _, _ | .wait _, _ | .read _, _ | .invalidate .., _ | .fixHead .., _ => rfl

/-- The queue grows behind the leader's back. -/
theorem Front.mono {s s' : State N T} {q l : List N} (k : List N) (hhead : s'.head = s.head) :
    ∀ {p : Pc N}, Front s q l p → (∀ e, p.reliesOn = some e → s'.next e = s.next e) →
      Front s' (q ++ k) (l ++ k) p
  | .link none first, ⟨h, hq, hl⟩, _ => ⟨hhead.trans h, by rw [List.head?_append, hq]; rfl, by rw [hl]⟩
  | .loadNext e, ⟨h, hl⟩, _ | .setHead e none, ⟨h, hl⟩, _ => ⟨hhead.trans h, by rw [hl]; rfl⟩
  | .setHead e (some n), ⟨h, hq, hl⟩, _ =>
    ⟨hhead.trans h, by rw [List.head?_append, hq]; rfl, by rw [hl]⟩
  | .unlock e none, ⟨h, hl⟩, _ | .cas e, ⟨h, hl⟩, _ => ⟨hhead.trans h, by rw [hl]; rfl⟩
  | .wait e, ⟨h, hl, hq⟩, _ => ⟨hhead.trans h, by rw [hl]; rfl, List.append_ne_nil_of_left_ne_nil hq k⟩
  | .read e, ⟨h, hl, hq, hn⟩, hnext =>
    ⟨hhead.trans h, by rw [hl]; rfl, List.append_ne_nil_of_left_ne_nil hq k,
      by rw [hnext e rfl, hn, List.head?_append_of_ne_nil _ hq]⟩
  | .invalidate e next, ⟨h, hl, hq, hn⟩, _ =>
    ⟨hhead.trans h, by rw [hl], List.append_ne_nil_of_left_ne_nil hq k,
      by rw [hn, List.head?_append_of_ne_nil _ hq]⟩
  | .fixHead e next, ⟨h, hl, hq, hn, he⟩, hnext =>
    ⟨hhead.trans h, by rw [hl], List.append_ne_nil_of_left_ne_nil hq k,
      by rw [hn, List.head?_append_of_ne_nil _ hq], by rw [hnext e rfl, he]⟩

/-! ### One thread moves -/

section Steps
variable {s s' : State N T} {q q' l l' : List N} {t : T} {p : Pc N}

theorem Inv.front_of (h : Inv s q l) (ht : (s.pc t).leads = true) : Front s q l (s.pc t) := by
  rcases h.front with ⟨u, hu⟩ | ⟨hnone, -⟩
  · rwa [h.leader t u ht hu.leads]
  · rw [hnone t] at ht
    cases ht

/-- `head` is somewhere: nobody leads. -/
theorem Inv.head_some {e : N} (h : Inv s q l) (hlock : s.lock = some t)
    (ht : (s.pc t).leads = false) (hhead : s.head = some e) :
    (∀ u, (s.pc u).leads = false) ∧ q.head? = some e ∧ l = q := by
  rcases h.front with ⟨u, hu⟩ | ⟨hnone, hq, hl⟩
  · exfalso
    have hnot : (s.pc u).locked = false := by
      by_contra hlocked
      have hut := (h.lock u).mp (by simpa using hlocked)
      rw [hlock, Option.some.injEq] at hut
      rw [hut, hu.leads] at ht
      cases ht
    have hleads := hu.leads
    cases hpc : s.pc u <;> rw [hpc] at hu hnot hleads <;>
      simp only [Pc.locked, Pc.leads, Bool.true_eq_false, Bool.false_eq_true] at hnot hleads
    case link prev first =>
      cases prev with
      | none => rw [hu.1] at hhead; cases hhead
      | some prev => cases hu
    all_goals
      have hnull := hu.1
      rw [hnull] at hhead
      cases hhead
  · exact ⟨hnone, hq ▸ hhead, hl⟩

variable [DecidableEq T]

/-- Thread `t` moves to `p`. -/
theorem Inv.move (h : Inv s q l) (hpc : s'.pc = Function.update s.pc t p)
    (hhistory : s'.pushed = s'.popped ++ q') (hqueued : ∀ n, s'.owner n = .queued ↔ n ∈ q')
    (hfree : ∀ n, s'.owner n = .free → s'.next n = none)
    (howner : ∀ n u, u ≠ t → (s.owner n = .popping u → s'.owner n = .popping u) ∧
      (s.owner n = .pushing u → s'.owner n = .pushing u ∧ s'.next n = s.next n))
    (helem : ∀ e, p.elem = some e → s'.owner e = .popping t)
    (hsegment : ∀ first rest, p = .swing first rest → Segment s' t (first :: rest))
    (hlock : (∀ u, u ≠ t → (s'.lock = some u ↔ s.lock = some u)) ∧
      (p.locked = true ↔ s'.lock = some t))
    (hleader : p.leads = true → ∀ u, u ≠ t → (s.pc u).leads = false)
    (hfront : (∃ u, Front s' q' l' (Function.update s.pc t p u)) ∨
      (∀ u, (Function.update s.pc t p u).leads = false) ∧ s'.head = q'.head? ∧ l' = q')
    (hline : Line s'.next s'.tail (Function.update (fun u => (s.pc u).owes) t p.owes) l') :
    Inv s' q' l' := by
  have howes : (fun u => (s'.pc u).owes) = Function.update (fun u => (s.pc u).owes) t p.owes := by
    rw [hpc]
    exact Function.comp_update Pc.owes s.pc t p
  refine ⟨hhistory, hqueued, hfree, fun u e he => ?_, fun u first rest hu => ?_,
    by rw [hpc]; exact lock_move h.lock hlock, by rw [hpc]; exact leader_move h.leader hleader,
    by rw [hpc]; exact hfront, by rw [howes]; exact hline⟩
  · rw [hpc] at he
    rcases eq_or_ne u t with rfl | hne
    · rw [Function.update_self] at he
      exact helem e he
    · rw [Function.update_of_ne hne] at he
      exact (howner e u hne).1 (h.elem u e he)
  · rw [hpc] at hu
    rcases eq_or_ne u t with rfl | hne
    · rw [Function.update_self] at hu
      exact hsegment first rest hu
    · rw [Function.update_of_ne hne] at hu
      obtain ⟨hnodup, howned, hlinks, hends⟩ := h.segment u first rest hu
      have hkeep : ∀ n ∈ first :: rest, s'.owner n = .pushing u ∧ s'.next n = s.next n :=
        fun n hn => (howner n u hne).2 (howned n hn)
      refine ⟨hnodup, fun n hn => (hkeep n hn).1, fun a b hab => ?_, fun z hz => ?_⟩
      · rw [(hkeep a hab.left_mem).2]
        exact hlinks a b hab
      · rw [(hkeep z (List.mem_of_getLast? hz)).2]
        exact hends z hz

/-- The front after a thread that does not lead has moved. -/
theorem Inv.front_quiet {r : State N T} (h : Inv s q l) (k : List N) (hk : k = [] ∨ l ≠ [])
    (ht : (s.pc t).leads = false) (hp : p.leads = false) (hhead : r.head = s.head)
    (hnext : ∀ u e, (s.pc u).reliesOn = some e → r.next e = s.next e) :
    (∃ u, Front r (q ++ k) (l ++ k) (Function.update s.pc t p u)) ∨
      (∀ u, (Function.update s.pc t p u).leads = false) ∧ r.head = (q ++ k).head? ∧
        l ++ k = q ++ k := by
  rcases h.front with ⟨u, hu⟩ | ⟨hnone, hq, hl⟩
  · have hut : u ≠ t := by
      rintro rfl
      rw [hu.leads] at ht
      cases ht
    refine .inl ⟨u, ?_⟩
    rw [Function.update_of_ne hut]
    exact hu.mono k hhead (hnext u)
  · refine .inr ⟨none_leads (fun u _ => hnone u) hp, ?_, by rw [hl]⟩
    rw [hhead, hq]
    rcases hk with rfl | hk
    · rw [List.append_nil]
    · rw [List.head?_append_of_ne_nil _ (hl ▸ hk)]

/-- The front after the thread that leads has moved. -/
theorem front_leads (hfront : Front s' q' l' p) :
    (∃ u, Front s' q' l' (Function.update s.pc t p u)) ∨
      (∀ u, (Function.update s.pc t p u).leads = false) ∧ s'.head = q'.head? ∧ l' = q' :=
  .inl ⟨t, by rw [Function.update_self]; exact hfront⟩

/-- The front when the thread that leads is done. -/
theorem front_done (hother : ∀ u, u ≠ t → (s.pc u).leads = false) (hp : p.leads = false)
    (hhead : s'.head = q'.head?) (hl : l' = q') :
    (∃ u, Front s' q' l' (Function.update s.pc t p u)) ∨
      (∀ u, (Function.update s.pc t p u).leads = false) ∧ s'.head = q'.head? ∧ l' = q' :=
  .inr ⟨none_leads hother hp, hhead, hl⟩

/-- A step that touches no element. -/
theorem Inv.walk (h : Inv s q l) (hpc : s'.pc = Function.update s.pc t p)
    (hsame : s'.next = s.next ∧ s'.tail = s.tail ∧ s'.owner = s.owner ∧ s'.pushed = s.pushed ∧
      s'.popped = s.popped)
    (helem : ∀ e, p.elem = some e → (s.pc t).elem = some e)
    (howes : (s.pc t).owes = none ∧ p.owes = none) (hsegment : ∀ first rest, p ≠ .swing first rest)
    (hlock : (∀ u, u ≠ t → (s'.lock = some u ↔ s.lock = some u)) ∧
      (p.locked = true ↔ s'.lock = some t))
    (hleader : p.leads = true → (s.pc t).leads = true)
    (hfront : (∃ u, Front s' q l' (Function.update s.pc t p u)) ∨
      (∀ u, (Function.update s.pc t p u).leads = false) ∧ s'.head = q.head? ∧ l' = q)
    (hline : Line s.next s.tail (fun u => (s.pc u).owes) l') : Inv s' q l' := by
  obtain ⟨hnext, htail, howner, hpushed, hpopped⟩ := hsame
  refine h.move hpc (by rw [hpushed, hpopped]; exact h.history) (by rw [howner]; exact h.queued)
    (by rw [howner, hnext]; exact h.free) (fun n u _ => ?_) (fun e he => ?_)
    (fun first rest hp => absurd hp (hsegment first rest)) hlock (fun hp u hu => ?_) hfront ?_
  · rw [howner, hnext]
    exact ⟨id, fun hn => ⟨hn, rfl⟩⟩
  · rw [howner]
    exact h.elem t e (helem e he)
  · exact follows h.leader (hleader hp) hu
  · rw [hnext, htail, kept (f := Pc.owes) (howes.2.trans howes.1.symm)]
    exact hline

/-- A thread that does not lead takes a step that touches nothing but the lock. -/
theorem Inv.pass (h : Inv s q l) (hpc : s'.pc = Function.update s.pc t p)
    (hsame : s'.next = s.next ∧ s'.tail = s.tail ∧ s'.owner = s.owner ∧ s'.pushed = s.pushed ∧
      s'.popped = s.popped) (hhead : s'.head = s.head)
    (helem : ∀ e, p.elem = some e → (s.pc t).elem = some e)
    (howes : (s.pc t).owes = none ∧ p.owes = none) (hsegment : ∀ first rest, p ≠ .swing first rest)
    (hlock : (∀ u, u ≠ t → (s'.lock = some u ↔ s.lock = some u)) ∧
      (p.locked = true ↔ s'.lock = some t))
    (ht : (s.pc t).leads = false) (hp : p.leads = false) : Inv s' q l := by
  refine h.walk hpc hsame helem howes hsegment hlock (fun hlead => ?_) ?_ h.line
  · rw [hp] at hlead
    cases hlead
  · have hfront := h.front_quiet (r := s') [] (.inl rfl) ht hp hhead fun u e _ => by rw [hsame.1]
    rwa [List.append_nil, List.append_nil] at hfront

omit [DecidableEq T] in
/-- Every node of the line is queued, or its pop leads. -/
theorem Inv.mem_line {a : N} (h : Inv s q l) (ha : a ∈ l) :
    s.owner a = .queued ∨ ∃ u, (s.pc u).leads = true ∧ s.owner a = .popping u := by
  have hq : a ∈ q → s.owner a = .queued := (h.queued a).mpr
  have hpop : ∀ {u e}, (s.pc u).leads = true → (s.pc u).elem = some e → l = e :: q →
      s.owner a = .queued ∨ ∃ u, (s.pc u).leads = true ∧ s.owner a = .popping u := by
    rintro u e hlead he rfl
    rcases List.mem_cons.mp ha with rfl | ha
    · exact .inr ⟨u, hlead, h.elem u a he⟩
    · exact .inl (hq ha)
  rcases h.front with ⟨u, hu⟩ | ⟨-, -, hl⟩
  · have hlead := hu.leads
    cases hpc : s.pc u <;> rw [hpc] at hu
    case link prev first =>
      cases prev with
      | none => exact .inl (hq (hu.2.2 ▸ ha))
      | some prev => cases hu
    case loadNext e => exact hpop hlead (by rw [hpc]; rfl) hu.2
    case setHead e next =>
      cases next with
      | none => exact hpop hlead (by rw [hpc]; rfl) hu.2
      | some n => exact .inl (hq (hu.2.2 ▸ ha))
    case unlock e next =>
      cases next with
      | none => exact hpop hlead (by rw [hpc]; rfl) hu.2
      | some n => cases hu
    case cas e => exact hpop hlead (by rw [hpc]; rfl) hu.2
    case wait e => exact hpop hlead (by rw [hpc]; rfl) hu.2.1
    case read e => exact hpop hlead (by rw [hpc]; rfl) hu.2.1
    case invalidate e next => exact .inl (hq (hu.2.1 ▸ ha))
    case fixHead e next => exact .inl (hq (hu.2.1 ▸ ha))
    all_goals cases hu
  · exact .inl (hq (hl ▸ ha))

omit [DecidableEq T] in
theorem Inv.line_not_free {a : N} (h : Inv s q l) (ha : a ∈ l) : s.owner a ≠ .free := by
  rcases h.mem_line ha with hq | ⟨u, -, hu⟩
  · rw [hq]; simp
  · rw [hu]; simp

omit [DecidableEq T] in
theorem Inv.line_not_pushing {a : N} {u : T} (h : Inv s q l) (ha : a ∈ l) :
    s.owner a ≠ .pushing u := by
  rcases h.mem_line ha with hq | ⟨v, -, hv⟩
  · rw [hq]; simp
  · rw [hv]; simp

theorem reliesOn_elem {e : N} (he : p.reliesOn = some e) : p.elem = some e := by
  cases p <;> first | exact he | cases he

theorem reliesOn_leads {e : N} (he : p.reliesOn = some e) : p.leads = true := by
  cases p <;> first | rfl | cases he

/-! ### `push` -/

section Push
variable [DecidableEq N]

/-- STEP: a call of `push`. -/
theorem Inv.push {first : N} {rest : List N} (h : Inv s q l) (hpc : s.pc t = .out)
    (hnodup : (first :: rest).Nodup) (hfree : ∀ n ∈ first :: rest, s.owner n = .free) :
    Inv (State.goto { s with
      next := prelink s.next (first :: rest)
      owner := updateAll s.owner (first :: rest) (.pushing t) } t (.swing first rest)) q l := by
  have hout : ∀ n, s.owner n ≠ .free → n ∉ first :: rest := fun n hn hmem => hn (hfree n hmem)
  refine h.move rfl h.history (fun n => ?_) (fun n hn => ?_) (fun n u hu => ⟨fun hn => ?_, fun hn => ?_⟩)
    (fun e he => by cases he) (fun first' rest' hp => ?_) (lock_same h.lock rfl (by rw [hpc]; rfl))
    (fun hp => by cases hp) ?_ ?_
  · show updateAll s.owner (first :: rest) (.pushing t) n = .queued ↔ n ∈ q
    by_cases hmem : n ∈ first :: rest
    · rw [updateAll_mem hmem]
      refine iff_of_false (by simp) fun hq => ?_
      have hqueued := (h.queued n).mpr hq
      rw [hfree n hmem] at hqueued
      cases hqueued
    · rw [updateAll_other hmem]
      exact h.queued n
  · have hset : updateAll s.owner (first :: rest) (.pushing t) n = .free := hn
    obtain ⟨hmem, hset⟩ := of_updateAll hset nofun
    exact (prelink_other _ hmem).trans (h.free n hset)
  · exact (updateAll_other (hout n (by rw [hn]; simp))).trans hn
  · have hmem := hout n (by rw [hn]; simp)
    exact ⟨(updateAll_other hmem).trans hn, prelink_other _ hmem⟩
  · obtain ⟨rfl, rfl⟩ := Pc.swing.inj hp
    refine ⟨hnodup, fun n hn => updateAll_mem hn, fun a b hab => prelink_adj _ hnodup hab, fun z hz => ?_⟩
    exact (prelink_last _ hnodup hz).trans (h.free z (hfree z (List.mem_of_getLast? hz)))
  · have hfront := h.front_quiet (t := t) (p := .swing first rest) (r := State.goto { s with
      next := prelink s.next (first :: rest)
      owner := updateAll s.owner (first :: rest) (.pushing t) } t (.swing first rest)) [] (.inl rfl)
      (by rw [hpc]; rfl) rfl rfl fun u e he => ?_
    · rwa [List.append_nil, List.append_nil] at hfront
    · exact prelink_other _ (hout e (by rw [h.elem u e (reliesOn_elem he)]; simp))
  · rw [kept (f := Pc.owes) (by rw [hpc]; rfl)]
    exact h.line.congr fun a ha => prelink_other _ (hout a (h.line_not_free ha))

omit [DecidableEq N] [DecidableEq T] in
/-- Nothing is in the line: nobody leads. -/
theorem Inv.head_none (h : Inv s q []) : q = [] ∧ (∀ u, (s.pc u).leads = false) ∧ s.head = none := by
  rcases h.front with ⟨u, hu⟩ | ⟨hnone, hhead, hl⟩
  · exfalso
    cases hpc : s.pc u <;> rw [hpc] at hu
    case link prev first =>
      cases prev with
      | none => have := hu.2.1; rw [← hu.2.2] at this; cases this
      | some prev => cases hu
    case loadNext e => cases hu.2
    case setHead e next =>
      cases next with
      | none => cases hu.2
      | some n => have := hu.2.1; rw [← hu.2.2] at this; cases this
    case unlock e next =>
      cases next with
      | none => cases hu.2
      | some n => cases hu
    case cas e => cases hu.2
    case wait e => cases hu.2.1
    case read e => cases hu.2.1
    case invalidate e next => exact hu.2.2.1 hu.2.1.symm
    case fixHead e next => exact hu.2.2.1 hu.2.1.symm
    all_goals cases hu
  · refine ⟨hl.symm, hnone, ?_⟩
    rw [hhead, ← hl]
    rfl

/-- STEP: the exchange of the tail. -/
theorem Inv.swing {first : N} {rest : List N} (h : Inv s q l) (hpc : s.pc t = .swing first rest) :
    ∃ l', Inv (State.goto { s with
      tail := (first :: rest).getLast?
      pushed := s.pushed ++ first :: rest
      owner := updateAll s.owner (first :: rest) .queued } t (.link s.tail first))
      (q ++ first :: rest) l' := by
  obtain ⟨hnodup, howned, hlinks, hends⟩ := h.segment t first rest hpc
  have hdisj : ∀ x ∈ first :: rest, x ∉ l := fun x hx hl => h.line_not_pushing hl (howned x hx)
  have hout : ∀ n, s.owner n ≠ .pushing t → n ∉ first :: rest := fun n hn hmem => hn (howned n hmem)
  have hmove : ∀ l', ((Pc.link s.tail first).leads = true → ∀ u, u ≠ t → (s.pc u).leads = false) →
      ((∃ u, Front (State.goto { s with
          tail := (first :: rest).getLast?
          pushed := s.pushed ++ first :: rest
          owner := updateAll s.owner (first :: rest) .queued } t (.link s.tail first))
          (q ++ first :: rest) l' (Function.update s.pc t (.link s.tail first) u)) ∨
        (∀ u, (Function.update s.pc t (.link s.tail first) u).leads = false) ∧
          s.head = (q ++ first :: rest).head? ∧ l' = q ++ first :: rest) →
      Line s.next (first :: rest).getLast?
        (Function.update (fun u => (s.pc u).owes) t (Pc.link s.tail first).owes) l' →
      Inv (State.goto { s with
        tail := (first :: rest).getLast?
        pushed := s.pushed ++ first :: rest
        owner := updateAll s.owner (first :: rest) .queued } t (.link s.tail first))
        (q ++ first :: rest) l' := by
    intro l' hleader hfront hline
    refine h.move rfl ?_ (fun n => ?_) (fun n hn => ?_) (fun n u hu => ⟨fun hn => ?_, fun hn => ?_⟩)
      (fun e he => ?_) (fun first' rest' hp => by cases hp) (lock_same h.lock rfl ?_) hleader hfront hline
    · show s.pushed ++ first :: rest = s.popped ++ (q ++ first :: rest)
      rw [h.history, List.append_assoc]
    · show updateAll s.owner (first :: rest) .queued n = .queued ↔ n ∈ q ++ first :: rest
      rw [List.mem_append, updateAll_iff, h.queued n]
    · have hset : updateAll s.owner (first :: rest) .queued n = .free := hn
      exact h.free n (of_updateAll hset nofun).2
    · exact (updateAll_other (hout n (by rw [hn]; simp))).trans hn
    · have hmem := hout n (by rw [hn]; simpa using hu)
      exact ⟨(updateAll_other hmem).trans hn, rfl⟩
    · cases htail : s.tail with
      | none => rw [htail] at he; cases he
      | some z => rw [htail] at he; cases he
    · rw [hpc]
      cases s.tail <;> rfl
  cases htail : s.tail with
  | none =>
    have hline := h.line
    rw [htail] at hline
    obtain rfl := hline.eq_nil
    obtain ⟨rfl, hnone, hhead⟩ := h.head_none
    rw [htail] at hmove
    refine ⟨first :: rest, hmove _ (fun _ u _ => hnone u) (front_leads ⟨hhead, rfl, rfl⟩) ?_⟩
    rw [kept (f := Pc.owes) (by rw [hpc]; rfl)]
    exact hline.start hnodup hlinks hends
  | some z =>
    have hline := h.line
    rw [htail] at hline hmove
    have hl : l ≠ [] := by
      rintro rfl
      cases hline.last
    refine ⟨l ++ first :: rest, hmove _ (fun hlead => by cases hlead) ?_ ?_⟩
    · exact h.front_quiet _ (.inr hl) (by rw [hpc]; rfl) rfl rfl fun u e _ => rfl
    · exact hline.append (by rw [hpc]; rfl) rfl hnodup hdisj hlinks hends

omit [DecidableEq N] in
/-- STEP: the first element of an empty queue becomes the head. -/
theorem Inv.linkHead {first : N} (h : Inv s q l) (hpc : s.pc t = .link none first) :
    Inv (State.returns { s with head := some first } t (.pushed true)) q l := by
  have hleads : (s.pc t).leads = true := by rw [hpc]; rfl
  have hfront := h.front_of hleads
  rw [hpc] at hfront
  obtain ⟨-, hq, hl⟩ := hfront
  exact h.walk rfl ⟨rfl, rfl, rfl, rfl, rfl⟩ (fun e he => by cases he) ⟨by rw [hpc]; rfl, rfl⟩
    (fun first rest hp => by cases hp) (lock_same h.lock rfl (by rw [hpc]; rfl)) (fun hp => by cases hp)
    (front_done (fun u => follows h.leader hleads) rfl hq.symm hl) h.line

/-- STEP: the old tail gets its link. -/
theorem Inv.link {prev first : N} (h : Inv s q l) (hpc : s.pc t = .link (some prev) first) :
    Inv (State.returns { s with next := Function.update s.next prev (some first) } t
      (.pushed false)) q l := by
  obtain ⟨hadj, hnull⟩ := h.line.owed t prev first (by rw [hpc]; rfl)
  have hline : prev ∈ l := hadj.left_mem
  refine h.move rfl h.history h.queued (fun n hn => ?_) (fun n u hu => ⟨id, fun hn => ⟨hn, ?_⟩⟩)
    (fun e he => by cases he) (fun first rest hp => by cases hp) (lock_same h.lock rfl (by rw [hpc]; rfl))
    (fun hp => by cases hp) ?_ (h.line.link (by rw [hpc]; rfl))
  · have hne : n ≠ prev := by
      rintro rfl
      exact h.line_not_free hline hn
    exact (Function.update_of_ne hne ..).trans (h.free n hn)
  · have hne : n ≠ prev := by
      rintro rfl
      exact h.line_not_pushing hline hn
    exact Function.update_of_ne hne ..
  · have hfront := h.front_quiet (t := t) (p := .out) (r := State.returns { s with
      next := Function.update s.next prev (some first) } t (.pushed false)) [] (.inl rfl)
      (by rw [hpc]; rfl) rfl rfl fun u e he => ?_
    · rwa [List.append_nil, List.append_nil] at hfront
    · -- the link that the leader relies on is made, or is that of an element outside of the line
      have hne : e ≠ prev := by
        rintro rfl
        have hfront := h.front_of (reliesOn_leads he)
        cases hu : s.pc u <;> rw [hu] at he hfront <;> cases he
        case read => exact hfront.2.2.1 (List.head?_eq_none_iff.mp (hfront.2.2.2.symm.trans hnull))
        case fixHead =>
          have hqueued := (h.queued _).mpr (hfront.2.1 ▸ hline)
          rw [h.elem u _ (by rw [hu]; rfl)] at hqueued
          cases hqueued
      exact Function.update_of_ne hne ..

end Push

/-! ### `pop` -/

/-- STEP: a call of `pop`. -/
theorem Inv.pop (h : Inv s q l) (hpc : s.pc t = .out) : Inv (s.goto t .lock) q l :=
  h.pass rfl ⟨rfl, rfl, rfl, rfl, rfl⟩ rfl (fun e he => by cases he) ⟨by rw [hpc]; rfl, rfl⟩
    (fun first rest hp => by cases hp) (lock_same h.lock rfl (by rw [hpc]; rfl)) (by rw [hpc]; rfl) rfl

/-- STEP: the lock is taken. -/
theorem Inv.lock_step (h : Inv s q l) (hpc : s.pc t = .lock) (hlock : s.lock = none) :
    Inv (State.goto { s with lock := some t } t .load) q l := by
  refine h.pass rfl ⟨rfl, rfl, rfl, rfl, rfl⟩ rfl (fun e he => by cases he) ⟨by rw [hpc]; rfl, rfl⟩
    (fun first rest hp => by cases hp) (lock_taken hlock rfl rfl) (by rw [hpc]; rfl) rfl

/-- STEP: `head` is null. -/
theorem Inv.loadNull (h : Inv s q l) (hpc : s.pc t = .load) :
    Inv (State.goto { s with took := Function.update s.took t none } t .leave) q l :=
  h.pass rfl ⟨rfl, rfl, rfl, rfl, rfl⟩ rfl (fun e he => by cases he) ⟨by rw [hpc]; rfl, rfl⟩
    (fun first rest hp => by cases hp) (lock_same h.lock rfl (by rw [hpc]; rfl)) (by rw [hpc]; rfl) rfl

/-- STEP: `pop` returns null. -/
theorem Inv.leave (h : Inv s q l) (hpc : s.pc t = .leave) :
    Inv (State.returns { s with lock := none } t (.popped none)) q l :=
  h.pass rfl ⟨rfl, rfl, rfl, rfl, rfl⟩ rfl (fun e he => by cases he) ⟨by rw [hpc]; rfl, rfl⟩
    (fun first rest hp => by cases hp) (lock_released h.lock (by rw [hpc]; rfl) rfl rfl)
    (by rw [hpc]; rfl) rfl

/-- STEP: the lock section takes the first of the queue. -/
theorem Inv.load [DecidableEq N] {e : N} (h : Inv s q l) (hpc : s.pc t = .load)
    (hhead : s.head = some e) :
    ∃ q', Inv (State.goto { s with
      popped := s.popped ++ [e]
      took := Function.update s.took t (some e)
      owner := Function.update s.owner e (.popping t) } t (.loadNext e)) q' l := by
  have hlock : s.lock = some t := (h.lock t).mp (by rw [hpc]; rfl)
  obtain ⟨hnone, hq, hl⟩ := h.head_some hlock (by rw [hpc]; rfl) hhead
  obtain ⟨q, rfl⟩ : ∃ q', q = e :: q' := by
    cases q with
    | nil => cases hq
    | cons x q => exact ⟨q, by rw [Option.some.inj hq]⟩
  have heq : e ∉ q := by
    have hnodup := h.line.nodup
    rw [hl] at hnodup
    exact (List.nodup_cons.mp hnodup).1
  have hqueued : s.owner e = .queued := (h.queued e).mpr (List.mem_cons_self ..)
  have hother : ∀ n, s.owner n ≠ .queued →
      Function.update s.owner e (.popping t) n = s.owner n := by
    intro n hn
    refine Function.update_of_ne ?_ ..
    rintro rfl
    exact hn hqueued
  refine ⟨q, h.move rfl ?_ (fun n => ?_) (fun n hn => ?_) (fun n u hu => ⟨fun hn => ?_, fun hn => ?_⟩)
    (fun e' he => ?_) (fun first rest hp => by cases hp) (lock_same h.lock rfl (by rw [hpc]; rfl))
    (fun _ u _ => hnone u) (front_leads ⟨hhead, hl⟩) ?_⟩
  · show s.pushed = s.popped ++ [e] ++ q
    rw [h.history, List.append_assoc]
    rfl
  · show Function.update s.owner e (.popping t) n = .queued ↔ n ∈ q
    rcases eq_or_ne n e with rfl | hne
    · rw [Function.update_self]
      exact iff_of_false (by simp) heq
    · rw [Function.update_of_ne hne, h.queued, List.mem_cons]
      exact ⟨fun hn => hn.resolve_left hne, .inr⟩
  · have hset : Function.update s.owner e (.popping t) n = .free := hn
    have hne : n ≠ e := by
      rintro rfl
      rw [Function.update_self] at hset
      cases hset
    rw [Function.update_of_ne hne] at hset
    exact h.free n hset
  · exact (hother n (by rw [hn]; simp)).trans hn
  · exact ⟨(hother n (by rw [hn]; simp)).trans hn, rfl⟩
  · obtain rfl := Option.some.inj he
    exact Function.update_self ..
  · rw [kept (f := Pc.owes) (by rw [hpc]; rfl)]
    exact h.line

/-- STEP: the link of the element is read. -/
theorem Inv.loadNext {e : N} (h : Inv s q l) (hpc : s.pc t = .loadNext e) :
    ∃ l', Inv (s.goto t (.setHead e (s.next e))) q l' := by
  have hleads : (s.pc t).leads = true := by rw [hpc]; rfl
  have hfront := h.front_of hleads
  rw [hpc] at hfront
  obtain ⟨hhead, hl⟩ := hfront
  have hwalk : ∀ l', Front (s.goto t (.setHead e (s.next e))) q l' (.setHead e (s.next e)) →
      Line s.next s.tail (fun u => (s.pc u).owes) l' → Inv (s.goto t (.setHead e (s.next e))) q l' :=
    fun l' hfront hline => h.walk rfl ⟨rfl, rfl, rfl, rfl, rfl⟩ (fun e' he => by rw [hpc]; exact he)
      ⟨by rw [hpc]; rfl, rfl⟩ (fun first rest hp => by cases hp) (lock_same h.lock rfl (by rw [hpc]; rfl))
      (fun _ => hleads) (front_leads hfront) hline
  have hline := h.line
  rw [hl] at hline
  cases hn : s.next e with
  | none =>
    rw [hn] at hwalk
    exact ⟨l, hwalk l ⟨hhead, hl⟩ h.line⟩
  | some n =>
    rw [hn] at hwalk
    exact ⟨q, hwalk q ⟨hhead, hline.head?_eq hn, rfl⟩ (hline.pop hn)⟩

/-- STEP: `head` takes the link of the element. -/
theorem Inv.setHead {e : N} {next : Option N} (h : Inv s q l) (hpc : s.pc t = .setHead e next) :
    Inv (State.goto { s with head := next } t (.unlock e next)) q l := by
  have hleads : (s.pc t).leads = true := by rw [hpc]; rfl
  have hfront := h.front_of hleads
  rw [hpc] at hfront
  refine h.walk rfl ⟨rfl, rfl, rfl, rfl, rfl⟩ (fun e' he => by rw [hpc]; exact he)
    ⟨by rw [hpc]; rfl, rfl⟩ (fun first rest hp => by cases hp) (lock_same h.lock rfl (by rw [hpc]; rfl))
    (fun _ => hleads) ?_ h.line
  cases next with
  | none => exact front_leads ⟨rfl, hfront.2⟩
  | some n => exact front_done (fun u => follows h.leader hleads) rfl hfront.2.1.symm hfront.2.2

/-- STEP: the lock is released, `head` being set. -/
theorem Inv.unlockSome {e n : N} (h : Inv s q l) (hpc : s.pc t = .unlock e (some n)) :
    Inv (State.goto { s with lock := none } t (.clear e)) q l :=
  h.pass rfl ⟨rfl, rfl, rfl, rfl, rfl⟩ rfl (fun e' he => by rw [hpc]; exact he)
    ⟨by rw [hpc]; rfl, rfl⟩ (fun first rest hp => by cases hp)
    (lock_released h.lock (by rw [hpc]; rfl) rfl rfl) (by rw [hpc]; rfl) rfl

/-- STEP: the lock is released, `head` being null. -/
theorem Inv.unlockNone {e : N} (h : Inv s q l) (hpc : s.pc t = .unlock e none) :
    Inv (State.goto { s with lock := none } t (.cas e)) q l := by
  have hleads : (s.pc t).leads = true := by rw [hpc]; rfl
  have hfront := h.front_of hleads
  rw [hpc] at hfront
  exact h.walk rfl ⟨rfl, rfl, rfl, rfl, rfl⟩ (fun e' he => by rw [hpc]; exact he)
    ⟨by rw [hpc]; rfl, rfl⟩ (fun first rest hp => by cases hp)
    (lock_released h.lock (by rw [hpc]; rfl) rfl rfl) (fun _ => hleads) (front_leads hfront) h.line

/-- STEP: the tail is not the element any more. -/
theorem Inv.casFail {e : N} (h : Inv s q l) (hpc : s.pc t = .cas e) (htail : s.tail ≠ some e) :
    Inv (s.goto t (.wait e)) q l := by
  have hleads : (s.pc t).leads = true := by rw [hpc]; rfl
  have hfront := h.front_of hleads
  rw [hpc] at hfront
  obtain ⟨hhead, rfl⟩ := hfront
  refine h.walk rfl ⟨rfl, rfl, rfl, rfl, rfl⟩ (fun e' he => by rw [hpc]; exact he)
    ⟨by rw [hpc]; rfl, rfl⟩ (fun first rest hp => by cases hp) (lock_same h.lock rfl (by rw [hpc]; rfl))
    (fun _ => hleads) (front_leads ⟨hhead, rfl, ?_⟩) h.line
  rintro rfl
  exact htail h.line.last

/-- STEP: the link of the element has been made. -/
theorem Inv.wait {e : N} (h : Inv s q l) (hpc : s.pc t = .wait e) (hn : s.next e ≠ none) :
    Inv (s.goto t (.read e)) q l := by
  have hleads : (s.pc t).leads = true := by rw [hpc]; rfl
  have hfront := h.front_of hleads
  rw [hpc] at hfront
  obtain ⟨hhead, rfl, hq⟩ := hfront
  obtain ⟨n, hn⟩ := Option.ne_none_iff_exists'.mp hn
  exact h.walk rfl ⟨rfl, rfl, rfl, rfl, rfl⟩ (fun e' he => by rw [hpc]; exact he)
    ⟨by rw [hpc]; rfl, rfl⟩ (fun first rest hp => by cases hp) (lock_same h.lock rfl (by rw [hpc]; rfl))
    (fun _ => hleads) (front_leads ⟨hhead, rfl, hq, hn.trans (h.line.head?_eq hn).symm⟩) h.line

/-- STEP: the link of the element is read again. -/
theorem Inv.read {e : N} (h : Inv s q l) (hpc : s.pc t = .read e) :
    Inv (s.goto t (.invalidate e (s.next e))) q q := by
  have hleads : (s.pc t).leads = true := by rw [hpc]; rfl
  have hfront := h.front_of hleads
  rw [hpc] at hfront
  obtain ⟨hhead, rfl, hq, hnext⟩ := hfront
  obtain ⟨n, hn⟩ := Option.ne_none_iff_exists'.mp fun hn => hq (List.head?_eq_none_iff.mp hn)
  exact h.walk rfl ⟨rfl, rfl, rfl, rfl, rfl⟩ (fun e' he => by rw [hpc]; exact he)
    ⟨by rw [hpc]; rfl, rfl⟩ (fun first rest hp => by cases hp) (lock_same h.lock rfl (by rw [hpc]; rfl))
    (fun _ => hleads) (front_leads ⟨hhead, rfl, hq, hnext⟩) (h.line.pop (hnext.trans hn))

/-- A thread changes the element that it is popping, or returns it. -/
theorem Inv.touch {e : N} (h : Inv s q l) (hpc : s'.pc = Function.update s.pc t p)
    (he : (s.pc t).elem = some e) (hhistory : s'.pushed = s.pushed ∧ s'.popped = s.popped)
    (hnext : ∀ n, n ≠ e → s'.next n = s.next n) (howner : ∀ n, n ≠ e → s'.owner n = s.owner n)
    (hmine : p.elem = some e ∧ s'.owner e = .popping t ∨
      p.elem = none ∧ s'.owner e = .free ∧ s'.next e = none)
    (howes : (s.pc t).owes = none ∧ p.owes = none) (hsegment : ∀ first rest, p ≠ .swing first rest)
    (hlock : s'.lock = s.lock ∧ p.locked = (s.pc t).locked)
    (hleader : p.leads = true → (s.pc t).leads = true)
    (hfront : (∃ u, Front s' q l' (Function.update s.pc t p u)) ∨
      (∀ u, (Function.update s.pc t p u).leads = false) ∧ s'.head = q.head? ∧ l' = q)
    (hline : Line s'.next s'.tail (fun u => (s.pc u).owes) l') : Inv s' q l' := by
  have hpopping : s.owner e = .popping t := h.elem t e he
  have hne : ∀ n, s.owner n ≠ .popping t → n ≠ e := by
    rintro n hn rfl
    exact hn hpopping
  refine h.move hpc (by rw [hhistory.1, hhistory.2]; exact h.history) (fun n => ?_) (fun n hn => ?_)
    (fun n u hu => ⟨fun hn => ?_, fun hn => ?_⟩) (fun e' he' => ?_)
    (fun first rest hp => absurd hp (hsegment first rest)) (lock_same h.lock hlock.1 hlock.2)
    (fun hp u hu => follows h.leader (hleader hp) hu) hfront
    (by rw [kept (f := Pc.owes) (howes.2.trans howes.1.symm)]; exact hline)
  · rcases eq_or_ne n e with rfl | hn
    · have hq : n ∉ q := by
        intro hq
        have := (h.queued n).mpr hq
        rw [hpopping] at this
        cases this
      refine iff_of_false ?_ hq
      rcases hmine with ⟨-, hown⟩ | ⟨-, hown, -⟩ <;> rw [hown] <;> simp
    · rw [howner n hn]
      exact h.queued n
  · rcases eq_or_ne n e with rfl | hne
    · rcases hmine with ⟨-, hown⟩ | ⟨-, -, hnull⟩
      · rw [hown] at hn
        cases hn
      · exact hnull
    · rw [howner n hne] at hn
      rw [hnext n hne]
      exact h.free n hn
  · rw [howner n (hne n (by rw [hn]; simpa using hu))]
    exact hn
  · have hn' := hne n (by rw [hn]; simp)
    rw [howner n hn', hnext n hn']
    exact ⟨hn, rfl⟩
  · rcases hmine with ⟨hp, hown⟩ | ⟨hp, -⟩
    · rw [hp] at he'
      rw [← Option.some.inj he']
      exact hown
    · rw [hp] at he'
      cases he'

omit [DecidableEq T] in
/-- What a thread pops is not queued. -/
theorem Inv.elem_not_mem {e : N} (h : Inv s q l) (he : (s.pc t).elem = some e) : e ∉ q := by
  intro hq
  have hqueued := (h.queued e).mpr hq
  rw [h.elem t e he] at hqueued
  cases hqueued

section Return
variable [DecidableEq N] {e : N}

/-- STEP: `pop` returns the element, its link being cleared. -/
theorem Inv.clear (h : Inv s q l) (hpc : s.pc t = .clear e) :
    Inv (State.returnElem { s with next := Function.update s.next e none } t e) q l := by
  have he : (s.pc t).elem = some e := by rw [hpc]; rfl
  have hel : e ∉ l := by
    intro hel
    rcases h.mem_line hel with hq | ⟨u, hlead, hu⟩
    · exact h.elem_not_mem he ((h.queued e).mp hq)
    · rw [h.elem t e he, Owner.popping.injEq] at hu
      rw [← hu, hpc] at hlead
      cases hlead
  refine h.touch rfl he ⟨rfl, rfl⟩ (fun n hn => Function.update_of_ne hn ..)
    (fun n hn => Function.update_of_ne hn ..)
    (.inr ⟨rfl, Function.update_self .., Function.update_self ..⟩) ⟨by rw [hpc]; rfl, rfl⟩
    (fun first rest hp => by cases hp) ⟨rfl, by rw [hpc]; rfl⟩ (fun hp => by cases hp) ?_ ?_
  · have hfront := h.front_quiet (t := t) (p := .out) (r := State.returnElem { s with
      next := Function.update s.next e none } t e) [] (.inl rfl) (by rw [hpc]; rfl) rfl rfl
      fun u e' hu => ?_
    · rwa [List.append_nil, List.append_nil] at hfront
    · have hne : e' ≠ e := by
        rintro rfl
        have hsame := h.elem u e' (reliesOn_elem hu)
        rw [h.elem t e' he, Owner.popping.injEq] at hsame
        rw [← hsame, hpc] at hu
        cases hu
      exact Function.update_of_ne hne ..
  · refine h.line.congr fun a ha => Function.update_of_ne ?_ ..
    rintro rfl
    exact hel ha

/-- STEP: `pop` returns the only element. -/
theorem Inv.casEmpty (h : Inv s q l) (hpc : s.pc t = .cas e) (htail : s.tail = some e) :
    Inv (State.returnElem { s with tail := none } t e) q [] := by
  have hleads : (s.pc t).leads = true := by rw [hpc]; rfl
  have hfront := h.front_of hleads
  rw [hpc] at hfront
  obtain ⟨hhead, rfl⟩ := hfront
  have hline := h.line
  rw [htail] at hline
  obtain rfl := hline.sole
  exact h.touch rfl (by rw [hpc]; rfl) ⟨rfl, rfl⟩ (fun n hn => rfl)
    (fun n hn => Function.update_of_ne hn ..)
    (.inr ⟨rfl, Function.update_self .., h.line.ends e rfl⟩) ⟨by rw [hpc]; rfl, rfl⟩
    (fun first rest hp => by cases hp) ⟨rfl, by rw [hpc]; rfl⟩ (fun hp => by cases hp)
    (front_done (fun u => follows h.leader hleads) rfl hhead rfl) hline.clear

/-- STEP: the link of the element is cleared. -/
theorem Inv.invalidate {next : Option N} (h : Inv s q l) (hpc : s.pc t = .invalidate e next) :
    Inv (State.goto { s with next := Function.update s.next e none } t (.fixHead e next)) q l := by
  have he : (s.pc t).elem = some e := by rw [hpc]; rfl
  have hleads : (s.pc t).leads = true := by rw [hpc]; rfl
  have hfront := h.front_of hleads
  rw [hpc] at hfront
  obtain ⟨hhead, rfl, hq, hnext⟩ := hfront
  refine h.touch rfl he ⟨rfl, rfl⟩ (fun n hn => Function.update_of_ne hn ..) (fun n hn => rfl)
    (.inl ⟨rfl, h.elem t e he⟩) ⟨by rw [hpc]; rfl, rfl⟩ (fun first rest hp => by cases hp)
    ⟨rfl, by rw [hpc]; rfl⟩ (fun _ => hleads)
    (front_leads ⟨hhead, rfl, hq, hnext, Function.update_self ..⟩) ?_
  refine h.line.congr fun a ha => Function.update_of_ne ?_ ..
  rintro rfl
  exact h.elem_not_mem he ha

/-- STEP: `pop` returns the element, `head` being repaired. -/
theorem Inv.fixHead {next : Option N} (h : Inv s q l) (hpc : s.pc t = .fixHead e next) :
    Inv (State.returnElem { s with head := if next.isSome then next else s.head } t e) q l := by
  have he : (s.pc t).elem = some e := by rw [hpc]; rfl
  have hleads : (s.pc t).leads = true := by rw [hpc]; rfl
  have hfront := h.front_of hleads
  rw [hpc] at hfront
  obtain ⟨-, rfl, hq, hnext, hnull⟩ := hfront
  obtain ⟨n, hn⟩ := Option.ne_none_iff_exists'.mp fun hn => hq (List.head?_eq_none_iff.mp hn)
  rw [hn] at hnext
  subst hnext
  exact h.touch rfl he ⟨rfl, rfl⟩ (fun n hn => rfl) (fun n hn => Function.update_of_ne hn ..)
    (.inr ⟨rfl, Function.update_self .., hnull⟩) ⟨by rw [hpc]; rfl, rfl⟩
    (fun first rest hp => by cases hp) ⟨rfl, by rw [hpc]; rfl⟩ (fun hp => by cases hp)
    (front_done (fun u => follows h.leader hleads) rfl hn.symm rfl) h.line

end Return

/-! ### Every run -/

variable [DecidableEq N]

/-- STEP. -/
theorem Inv.next (h : Inv s q l) (hs : QueueNemesis.next s t = some s') : ∃ q' l', Inv s' q' l' := by
  unfold QueueNemesis.next at hs
  split at hs
  · cases hs
  · obtain rfl := Option.some.inj hs
    exact ⟨_, h.swing ‹_›⟩
  · obtain rfl := Option.some.inj hs
    exact ⟨_, _, h.linkHead ‹_›⟩
  · obtain rfl := Option.some.inj hs
    exact ⟨_, _, h.link ‹_›⟩
  · obtain ⟨hlock, hs⟩ := Option.ite_none_right_eq_some.mp hs
    obtain rfl := Option.some.inj hs
    exact ⟨_, _, h.lock_step ‹_› hlock⟩
  · split at hs
    · obtain rfl := Option.some.inj hs
      exact ⟨_, _, h.loadNull ‹_›⟩
    · obtain rfl := Option.some.inj hs
      obtain ⟨q', hI⟩ := h.load ‹_› ‹_›
      exact ⟨_, _, hI⟩
  · obtain rfl := Option.some.inj hs
    exact ⟨_, _, h.leave ‹_›⟩
  · obtain rfl := Option.some.inj hs
    exact ⟨_, h.loadNext ‹_›⟩
  · obtain rfl := Option.some.inj hs
    exact ⟨_, _, h.setHead ‹_›⟩
  · obtain rfl := Option.some.inj hs
    exact ⟨_, _, h.unlockSome ‹_›⟩
  · obtain rfl := Option.some.inj hs
    exact ⟨_, _, h.unlockNone ‹_›⟩
  · obtain rfl := Option.some.inj hs
    exact ⟨_, _, h.clear ‹_›⟩
  · split_ifs at hs with htail
    · obtain rfl := Option.some.inj hs
      exact ⟨_, _, h.casEmpty ‹_› htail⟩
    · obtain rfl := Option.some.inj hs
      exact ⟨_, _, h.casFail ‹_› htail⟩
  · obtain rfl := Option.some.inj hs
    split_ifs with hn
    · exact ⟨_, _, h⟩
    · exact ⟨_, _, h.wait ‹_› hn⟩
  · obtain rfl := Option.some.inj hs
    exact ⟨_, _, h.read ‹_›⟩
  · obtain rfl := Option.some.inj hs
    exact ⟨_, _, h.invalidate ‹_›⟩
  · obtain rfl := Option.some.inj hs
    exact ⟨_, _, h.fixHead ‹_›⟩

theorem Inv.step {a : Action N T} (h : Inv s q l) (hs : QueueNemesis.step s a = some s') :
    ∃ q' l', Inv s' q' l' := by
  cases a with
  | push t first rest =>
    obtain ⟨⟨hpc, hnodup, hfree⟩, hs⟩ := Option.ite_none_right_eq_some.mp hs
    obtain rfl := Option.some.inj hs
    exact ⟨_, _, h.push hpc hnodup hfree⟩
  | pop t =>
    obtain ⟨hpc, hs⟩ := Option.ite_none_right_eq_some.mp hs
    obtain rfl := Option.some.inj hs
    exact ⟨_, _, h.pop hpc⟩
  | next t => exact h.next hs

omit [DecidableEq N] [DecidableEq T] in
theorem Inv.init : Inv (State.init : State N T) [] [] :=
  ⟨rfl, fun n => iff_of_false (by simp [State.init]) (by simp), fun n _ => rfl,
    fun t e he => (by cases he), fun t first rest hp => (by cases hp),
    fun t => by simp [State.init, Pc.locked],
    fun t u ht => (by cases ht), .inr ⟨fun t => rfl, rfl, rfl⟩, Line.nil⟩

theorem inv_reach (h : Reach (system N T) s) : ∃ q l, Inv s q l := by
  refine h.inv (I := fun s => ∃ q l, Inv s q l) (fun s hs => ?_) fun s a s' ⟨q, l, hI⟩ hs => hI.step hs
  obtain rfl := hs
  exact ⟨[], [], .init⟩

/-! ### What is returned -/

omit [DecidableEq N] [DecidableEq T] in
/-- INVARIANT: a pop keeps to what its lock section has taken. -/
structure Took (s : State N T) : Prop where
  elem : ∀ t e, (s.pc t).elem = some e → s.took t = some e
  leave : ∀ t, s.pc t = .leave → s.took t = none

omit [DecidableEq N] in
theorem Took.goto (h : Took s) (hpc : s'.pc = Function.update s.pc t p) (htook : s'.took = s.took)
    (helem : ∀ e, p.elem = some e → (s.pc t).elem = some e) (hleave : p ≠ .leave) : Took s' := by
  refine ⟨fun u e hu => ?_, fun u hu => ?_⟩ <;> rw [hpc] at hu <;> rw [htook]
  · rcases eq_or_ne u t with rfl | hne
    · rw [Function.update_self] at hu
      exact h.elem u e (helem e hu)
    · rw [Function.update_of_ne hne] at hu
      exact h.elem u e hu
  · rcases eq_or_ne u t with rfl | hne
    · rw [Function.update_self] at hu
      exact absurd hu hleave
    · rw [Function.update_of_ne hne] at hu
      exact h.leave u hu

omit [DecidableEq N] in
theorem Took.load {r : Option N} (h : Took s) (hpc : s'.pc = Function.update s.pc t p)
    (htook : s'.took = Function.update s.took t r) (helem : p.elem = r) : Took s' := by
  refine ⟨fun u e hu => ?_, fun u hu => ?_⟩ <;> rw [hpc] at hu <;> rw [htook]
  · rcases eq_or_ne u t with rfl | hne
    · rw [Function.update_self] at hu ⊢
      exact helem.symm.trans hu
    · rw [Function.update_of_ne hne] at hu ⊢
      exact h.elem u e hu
  · rcases eq_or_ne u t with rfl | hne
    · rw [Function.update_self] at hu ⊢
      rw [← helem, hu]
      rfl
    · rw [Function.update_of_ne hne] at hu ⊢
      exact h.leave u hu

theorem Took.next (h : Took s) (hs : QueueNemesis.next s t = some s') : Took s' := by
  have hkeep : ∀ {e : N}, (s.pc t).elem = some e → ∀ e', some e = some e' → (s.pc t).elem = some e' :=
    fun he e' hee => he.trans hee
  unfold QueueNemesis.next at hs
  split at hs
  case h_6 =>
    split at hs <;> obtain rfl := Option.some.inj hs
    · exact h.load rfl rfl rfl
    · exact h.load rfl rfl rfl
  case h_1 => cases hs
  case h_5 =>
    obtain ⟨-, hs⟩ := Option.ite_none_right_eq_some.mp hs
    obtain rfl := Option.some.inj hs
    exact h.goto rfl rfl (fun e he => by cases he) (by simp)
  case h_13 e hpc =>
    split_ifs at hs <;> obtain rfl := Option.some.inj hs
    · exact h.goto rfl rfl (fun e he => by cases he) (by simp)
    · exact h.goto rfl rfl (hkeep (by rw [hpc]; rfl)) (by simp)
  case h_14 e hpc =>
    obtain rfl := Option.some.inj hs
    split_ifs
    · exact h
    · exact h.goto rfl rfl (hkeep (by rw [hpc]; rfl)) (by simp)
  case h_8 e hpc | h_9 e n hpc | h_10 e n hpc | h_11 e hpc | h_15 e hpc | h_16 e n hpc =>
    obtain rfl := Option.some.inj hs
    exact h.goto rfl rfl (hkeep (by rw [hpc]; rfl)) (by simp)
  all_goals
    obtain rfl := Option.some.inj hs
    exact h.goto rfl rfl (fun e he => by cases he) (by simp)

theorem took_reach (h : Reach (system N T) s) : Took s := by
  refine h.inv (fun s hs => ?_) fun s a s' hI hs => ?_
  · obtain rfl := hs
    exact ⟨fun t e he => (by cases he), fun t ht => (by cases ht)⟩
  · cases a with
    | push t first rest =>
      obtain ⟨-, hs⟩ := Option.ite_none_right_eq_some.mp hs
      obtain rfl := Option.some.inj hs
      exact hI.goto rfl rfl (fun e he => by cases he) (by simp)
    | pop t =>
      obtain ⟨-, hs⟩ := Option.ite_none_right_eq_some.mp hs
      obtain rfl := Option.some.inj hs
      exact hI.goto rfl rfl (fun e he => by cases he) (by simp)
    | next t => exact hI.next hs

/-- The element that is returned is free, hence unlinked. -/
theorem returned_elem {e : N} {r : Option N} {s₀ : State N T} (hI : ∃ q l, Inv (s₀.returnElem t e) q l)
    (htook : s₀.took t = some e) (hr : (s₀.returnElem t e).result t = some (.popped r)) :
    (s₀.returnElem t e).took t = r ∧ ∀ e, r = some e → (s₀.returnElem t e).next e = none := by
  obtain ⟨q, l, hI⟩ := hI
  have hset : (s₀.returnElem t e).result t = some (.popped (some e)) := Function.update_self ..
  rw [hset, Option.some.injEq, Result.popped.injEq] at hr
  subst hr
  refine ⟨htook, fun e' he => ?_⟩
  obtain rfl := Option.some.inj he
  exact hI.free e (Function.update_self ..)

/-- What a call of `pop` returns that is over with its next step. -/
theorem returned (hI : Inv s q l) (htook : Took s) (hs : QueueNemesis.next s t = some s')
    (hout : s'.pc t = .out) {r : Option N} (hr : s'.result t = some (.popped r)) :
    s'.took t = r ∧ ∀ e, r = some e → s'.next e = none := by
  have hgoto : ∀ (s : State N T) (p : Pc N), (s.goto t p).pc t = p := fun s p => Function.update_self ..
  have hresult : ∀ (s : State N T) (r : Result N), (s.returns t r).result t = some r := fun s r =>
    Function.update_self ..
  have hI' := hI.next hs
  have helem : ∀ {e : N}, (s.pc t).elem = some e → s.took t = some e := htook.elem t _
  unfold QueueNemesis.next at hs
  split at hs
  case h_1 => cases hs
  case h_3 | h_4 =>
    obtain rfl := Option.some.inj hs
    rw [hresult] at hr
    cases hr
  case h_7 hpc =>
    obtain rfl := Option.some.inj hs
    rw [hresult, Option.some.injEq, Result.popped.injEq] at hr
    subst hr
    exact ⟨htook.leave t hpc, fun e he => by cases he⟩
  case h_5 =>
    obtain ⟨-, hs⟩ := Option.ite_none_right_eq_some.mp hs
    obtain rfl := Option.some.inj hs
    rw [hgoto] at hout
    cases hout
  case h_6 =>
    split at hs <;> obtain rfl := Option.some.inj hs <;> rw [hgoto] at hout <;> cases hout
  case h_12 e hpc | h_17 e n hpc =>
    obtain rfl := Option.some.inj hs
    exact returned_elem hI' (helem (by rw [hpc]; rfl)) hr
  case h_13 e hpc =>
    split_ifs at hs <;> obtain rfl := Option.some.inj hs
    · exact returned_elem hI' (helem (by rw [hpc]; rfl)) hr
    · rw [hgoto] at hout
      cases hout
  case h_14 e hpc =>
    obtain rfl := Option.some.inj hs
    split_ifs at hout
    · rw [hpc] at hout
      cases hout
    · rw [hgoto] at hout
      cases hout
  all_goals
    obtain rfl := Option.some.inj hs
    rw [hgoto] at hout
    cases hout

/-! ### A pop while nothing else is in progress -/

omit [DecidableEq N] [DecidableEq T] in
/-- No operation is in progress. -/
theorem Inv.quiescent (h : Inv s q l) (hquiet : ∀ u, s.pc u = .out) :
    s.lock = none ∧ s.head = q.head? ∧ l = q ∧ Line s.next s.tail (fun _ : T => none) q := by
  have hlock : s.lock = none := by
    cases hl : s.lock with
    | none => rfl
    | some u =>
      have := (h.lock u).mpr hl
      rw [hquiet u] at this
      cases this
  have howes : (fun u => (s.pc u).owes) = fun _ => none := by
    funext u
    rw [hquiet u]
    rfl
  have hline := h.line
  rw [howes] at hline
  rcases h.front with ⟨u, hu⟩ | ⟨-, hhead, rfl⟩
  · rw [hquiet u] at hu
    cases hu
  · exact ⟨hlock, hhead, rfl, hline⟩

/-- The call of `pop` goes on alone until it returns the first of the queue. -/
theorem pop_alone (h : Inv s q l) (hquiet : ∀ u, s.pc u = .out) (t : T) :
    ∃ k s', exec (system N T) s (.pop t :: List.replicate k (.next t)) = some s' ∧ s'.pc t = .out ∧
      s'.result t = some (.popped q.head?) := by
  obtain ⟨hlock, hhead, rfl, hline⟩ := h.quiescent hquiet
  cases l with
  | nil =>
    refine ⟨3, ?_⟩
    simp [List.replicate_succ, system, step, QueueNemesis.next, State.goto, State.returns, hquiet t,
      hlock, hhead]
  | cons e rest =>
    refine ⟨6, ?_⟩
    cases hn : s.next e with
    | some n =>
      simp [List.replicate_succ, system, step, QueueNemesis.next, State.goto, State.returns,
        State.returnElem, hquiet t, hlock, hhead, hn]
    | none =>
      -- nobody owes a link, so the element is the last
      have hrest : rest = [] := by
        cases rest with
        | nil => rfl
        | cons x rest =>
          rcases hline.links e x (adj_cons.mpr (.inl ⟨rfl, rfl⟩)) with hx | ⟨u, hu⟩
          · rw [hn] at hx
            cases hx
          · cases hu
      have htail : s.tail = some e := by
        rw [hline.last, hrest]
        rfl
      simp [List.replicate_succ, system, step, QueueNemesis.next, State.goto, State.returns,
        State.returnElem, hquiet t, hlock, hhead, hn, htail]

/-- The assertion in `push` holds: the segment's last element is not linked. -/
theorem last_null {first : N} {rest : List N} (h : Reach (system N T) s) (hpc : s.pc t = .swing first rest)
    {last : N} (hlast : (first :: rest).getLast? = some last) : s.next last = none := by
  obtain ⟨q, l, hI⟩ := inv_reach h
  exact (hI.segment t first rest hpc).ends last hlast

/-- FIFO: what lock sections take is a prefix of what has been pushed, in the order of the tail
    exchanges; a pop returns what its section has taken, unlinked; and while nothing is in progress it
    returns null if and only if everything has been popped. -/
theorem nemesis_fifo (h : Reach (system N T) s) :
    s.popped <+: s.pushed ∧
    (∀ t s', step s (.next t) = some s' → s'.pc t = .out → ∀ r, s'.result t = some (.popped r) →
      s'.took t = r ∧ ∀ e, r = some e → s'.next e = none) ∧
    ((∀ t, s.pc t = .out) → ∀ t, ∃ k s' r,
      exec (system N T) s (.pop t :: List.replicate k (.next t)) = some s' ∧ s'.pc t = .out ∧
        s'.result t = some (.popped r) ∧ (r = none ↔ s.popped = s.pushed)) := by
  obtain ⟨q, l, hI⟩ := inv_reach h
  refine ⟨⟨q, hI.history.symm⟩, fun t s' hs hout r hr => returned hI (took_reach h) hs hout hr,
    fun hquiet t => ?_⟩
  obtain ⟨k, s', hexec, hout, hresult⟩ := pop_alone hI hquiet t
  refine ⟨k, s', q.head?, hexec, hout, hresult, ?_⟩
  rw [List.head?_eq_none_iff, hI.history]
  constructor
  · rintro rfl
    exact (List.append_nil _).symm
  · intro hq
    exact List.append_right_eq_self.mp hq.symm

end Steps

/-- A push links its segment while the element before it is being popped. -/
theorem nemesis_fifo_race : ∃ s : State ℕ Bool, Reach (system ℕ Bool) s ∧
    (s.pushed = [1, 2, 3] ∧ s.result true = some (.popped (some 1)) ∧ s.head = some 2) ∧
    s.popped <+: s.pushed := by
  obtain ⟨s, hs, htest⟩ := reach_of_exec (system ℕ Bool) State.init
    ([.push false 1 [], .next false, .next false, .pop true, .next true, .next true, .next true,
      .next true, .next true, .push false 2 [3], .next false, .next true, .next true, .next false,
      .next true, .next true, .next true, .next true])
    (fun s => decide (s.pushed = [1, 2, 3] ∧ s.result true = some (.popped (some 1)) ∧ s.head = some 2))
    rfl (by decide)
  exact ⟨s, hs, of_decide_eq_true htest, (nemesis_fifo hs).1⟩

end Libfibre.QueueNemesis
