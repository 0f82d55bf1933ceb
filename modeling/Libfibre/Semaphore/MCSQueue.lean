import Libfibre.Schemes.Transition
import Libfibre.Schemes.LinkedList
import Libfibre.Schemes.Threads
import Mathlib.Tactic.SplitIfs

/-! `MCSTimeoutQueue` (`MCSTimeoutSemaphore.h`) as long as no call has a timeout, with the `resume` that `V`
    does after `tryPop`. Each access to `head`, `tail` and `Next` is one step, and so is a round of a spin
    loop. The node of a call is on the stack of its fibre: there is one for each fibre, and it is gone when
    the call returns.

        push:    out ─▶ clear ─▶ swing ─▶ putHead ───────────────────▶ suspending ─▶ checking ─▶ out
                                   └────▶ prepare ─▶ read ─▶ cas ─▶ suspending ─▶ out
        tryPop:  out ─▶ lock ─▶ load ─▶ clearHead ─▶ unlock ─▶ readNext ─▶ casNext ─▶ setHead ─▶ resume ─▶ out
                                 │                               │ ▲
                                 └─▶ leave ─▶ out                ▼ └─ wait
                                                              casTail ─▶ reread ─▶ resume ─▶ out

    No node intends to leave, so that `leaving_self`, `leaving_other`, `gone` and the tags for restored and
    transient pointers do not occur, `Prev` is not looked at, and nobody takes part in a resume race:
    `suspend` returns null. -/

namespace Libfibre.MCSQueue
open Transition LinkedList Threads

/-! ### The code -/

/-- What is in `Next`; `atHead` is `at_head(nullptr)`. -/
inductive Ptr (F : Type) where
  | null
  | node (n : F)
  | atHead
  deriving DecidableEq

/-- Where a fibre is; `pred`, `temp`, `n` and `succ` are the locals of these names. -/
inductive Pc (F : Type) where
  | out
  | clear                                -- in `pushAndWaitUntilPopped`
  | swing
  | putHead
  | prepare (pred : F)
  | read (pred : F)
  | cas (pred : F) (temp : Ptr F)
  | suspending (first : Bool)
  | checking
  | lock                                 -- in `tryPop`
  | load
  | leave
  | clearHead (n : F)
  | unlock (n : F)
  | readNext (n : F)                     -- in `popFromHead`
  | casTail (n : F)
  | reread (n : F)
  | wait (n : F)
  | casNext (n succ : F)
  | setHead (n succ : F)
  | resume (n : F)                       -- in `V`
  deriving DecidableEq

/-- What has become of the node of a fibre. -/
inductive Place (F : Type) where
  | idle
  | queued
  | popping (t : F)
  | woken
  deriving DecidableEq

/-- The shared words, the nodes of the fibres, and where each fibre is. -/
structure State (F : Type) where
  head : Option F
  tail : Option F
  next : F → Ptr F
  resumed : F → ℕ                 -- calls of `resume` that no `suspend` has used
  lock : Option F                 -- `headLock`
  pc : F → Pc F
  result : F → Option F           -- of the latest `tryPop`
  place : F → Place F             -- history
  pushed : List F                 -- history: by tail exchanges
  popped : List F                 -- history: by lock sections
  returned : List F               -- history: by the ends of `suspend`

/-- A call begins, or goes on by one access. -/
inductive Action (F : Type) where
  | push (t : F)
  | pop (t : F)
  | next (t : F)

section Code
variable {F : Type} [DecidableEq F]

/-- Fibre `t` goes to another place in its call. -/
def State.goto (s : State F) (t : F) (p : Pc F) : State F := { s with pc := Function.update s.pc t p }

/-- History: the node of `n` is somewhere else. -/
def State.setPlace (s : State F) (n : F) (p : Place F) : State F :=
  { s with place := Function.update s.place n p }

/-- The link of node `n` changes. -/
def State.setNext (s : State F) (n : F) (p : Ptr F) : State F :=
  { s with next := Function.update s.next n p }

/-- `tryPop` returns `r`. -/
def State.returns (s : State F) (t : F) (r : Option F) : State F :=
  State.goto { s with result := Function.update s.result t r } t .out

/-- The next step of fibre `t`; a failing assertion stops it. -/
def next (s : State F) (t : F) : Option (State F) :=
  match s.pc t with
  | .out => none
  | .clear => some ((s.setNext t .null).goto t .swing)
  | .swing =>
    let s' := { s.setPlace t .queued with tail := some t, pushed := s.pushed ++ [t] }
    match s.tail with
    | none => some (s'.goto t .putHead)
    | some pred => some (s'.goto t (.prepare pred))
  | .putHead => some (State.goto { s with head := some t } t (.suspending true))
  | .prepare pred => if s.resumed t = 0 then some (s.goto t (.read pred)) else none
  | .read pred => some (s.goto t (.cas pred (s.next pred)))
  | .cas pred temp =>
    if s.next pred = temp then some ((s.setNext pred (.node t)).goto t (.suspending false))
    else some (s.goto t (.read pred))
  | .suspending first =>
    if s.resumed t = 0 then none
    else some (State.goto { s.setPlace t .idle with
      resumed := Function.update s.resumed t (s.resumed t - 1)
      returned := s.returned ++ [t] } t (if first then .checking else .out))
  | .checking => if s.head = some t then none else some (s.goto t .out)
  | .lock => if s.lock = none then some (State.goto { s with lock := some t } t .load) else none
  | .load =>
    match s.head with
    | none => some (s.goto t .leave)
    | some n => some (s.goto t (.clearHead n))
  | .leave => some (State.returns { s with lock := none } t none)
  | .clearHead n =>
    some (State.goto { s.setPlace n (.popping t) with head := none, popped := s.popped ++ [n] } t (.unlock n))
  | .unlock n => some (State.goto { s with lock := none } t (.readNext n))
  | .readNext n =>
    match s.next n with
    | .null => some (s.goto t (.casTail n))
    | .node succ => some (s.goto t (.casNext n succ))
    | .atHead => none
  | .casTail n =>
    if s.tail = some n then some (State.goto { s with tail := none } t (.reread n))
    else some (s.goto t (.wait n))
  | .reread n => some (s.goto t (.resume n))
  | .wait n => some (if s.next n = .null then s else s.goto t (.readNext n))
  | .casNext n succ =>
    if s.next n = .node succ then some ((s.setNext n .atHead).goto t (.setHead n succ))
    else some (s.goto t (.readNext n))
  | .setHead n succ => some (State.goto { s with head := some succ } t (.resume n))
  | .resume n =>
    if s.resumed n = 0 then
      some (State.returns { s.setPlace n .woken with
        resumed := Function.update s.resumed n (s.resumed n + 1) } t (some n))
    else none

/-- One access of a call. -/
def step (s : State F) : Action F → Option (State F)
  | .push t => if s.pc t = .out then some (s.goto t .clear) else none
  | .pop t => if s.pc t = .out then some (s.goto t .lock) else none
  | .next t => next s t

/-- The empty queue, with no call under way. -/
def State.init : State F where
  head := none
  tail := none
  next _ := .null
  resumed _ := 0
  lock := none
  pc _ := .out
  result _ := none
  place _ := .idle
  pushed := []
  popped := []
  returned := []

/-- Any number of fibres push and pop. -/
def system (F : Type) [DecidableEq F] : System (State F) (Action F) := ⟨fun s => s = .init, step⟩

end Code

variable {F : Type}

/-! ### What a fibre has in hand -/

/-- Its node is in use. -/
def Pc.waits : Pc F → Bool
  | .putHead | .prepare _ | .read _ | .cas .. | .suspending _ => true
  | _ => false

/-- It has not come to `suspend` yet. -/
def Pc.early : Pc F → Bool
  | .putHead | .prepare _ | .read _ | .cas .. => true
  | _ => false

/-- The predecessor that it still has to link itself to. -/
def Pc.pred : Pc F → Option F
  | .prepare pred | .read pred | .cas pred _ => some pred
  | _ => none

/-- The node that it has popped. -/
def Pc.elem : Pc F → Option F
  | .unlock n | .readNext n | .casTail n | .reread n | .wait n => some n
  | .casNext n _ | .setHead n _ | .resume n => some n
  | _ => none

/-- Inside the section of `headLock`. -/
def Pc.locked : Pc F → Bool
  | .load | .leave | .clearHead _ | .unlock _ => true
  | _ => false

/-- It has to set `head`, or to find that there is nothing to set it to. -/
def Pc.leads : Pc F → Bool
  | .putHead | .unlock _ | .readNext _ | .casTail _ | .wait _ | .casNext .. | .setHead .. => true
  | _ => false

/-- The `resume` that waits for its `suspend`. -/
def Place.resumed : Place F → ℕ
  | .woken => 1
  | .idle | .queued | .popping _ => 0

/-- The call that the node belongs to. -/
def Place.calls : Place F → ℕ
  | .idle => 0
  | .queued | .popping _ | .woken => 1

/-- The node that a link leads to. -/
def Ptr.node? : Ptr F → Option F
  | .node n => some n
  | _ => none

/-! ### The invariant -/

/-- INVARIANT: the nodes in use, and what has become of each. -/
structure Places [DecidableEq F] (s : State F) (q : List F) : Prop where
  history : s.pushed = s.popped ++ q
  queued : ∀ f, s.place f = .queued ↔ f ∈ q
  elem : ∀ t e, (s.pc t).elem = some e ↔ s.place e = .popping t
  resumed : ∀ f, s.resumed f = (s.place f).resumed
  waits : ∀ f, s.place f ≠ .idle ↔ (s.pc f).waits = true
  early : ∀ f, (s.pc f).early = true → s.place f = .queued
  count : ∀ f, s.pushed.count f = s.returned.count f + (s.place f).calls

/-- Where the fibre that leads finds the first of the queue `q`; `l` is the line. -/
def Front (s : State F) (q l : List F) (t : F) : Pc F → Prop
  | .putHead => s.head = none ∧ q.head? = some t ∧ l = q
  | .unlock n | .readNext n | .casTail n => s.head = none ∧ l = n :: q
  | .wait n => s.head = none ∧ l = n :: q ∧ q ≠ []
  | .casNext n succ => s.head = none ∧ l = n :: q ∧ s.next n = .node succ
  | .setHead _ succ => s.head = none ∧ l = q ∧ q.head? = some succ
  | _ => False

/-- What a fibre relies on. -/
def Sees (s : State F) (t : F) : Pc F → Prop
  | .swing => s.next t = .null
  | .cas _ temp => temp = .null
  | .clearHead n => s.head = some n
  | _ => True

/-- INVARIANT: the nodes that are linked or about to be linked. -/
structure Links (s : State F) (q l : List F) : Prop where
  sees : ∀ t, Sees s t (s.pc t)
  lock : ∀ t, (s.pc t).locked = true ↔ s.lock = some t
  leader : ∀ t u, (s.pc t).leads = true → (s.pc u).leads = true → t = u
  front : (∃ t, Front s q l t (s.pc t)) ∨ (∀ t, (s.pc t).leads = false) ∧ s.head = q.head? ∧ l = q
  line : Line (fun f => (s.next f).node?) s.tail (fun t => (s.pc t).pred.map (·, t)) l
  inner : ∀ f ∈ l, s.next f ≠ .atHead
  outer : ∀ f, f ∉ l → (s.next f).node? = none

/-- INVARIANT: of the queue `q`, the nodes `l` are linked up. -/
structure Inv [DecidableEq F] (s : State F) (q l : List F) : Prop where
  places : Places s q
  links : Links s q l

theorem Front.leads {s : State F} {q l : List F} {t : F} : ∀ {p : Pc F}, Front s q l t p → p.leads = true
  | .putHead, _ | .unlock _, _ | .readNext _, _ | .casTail _, _ | .wait _, _ | .casNext .., _
  | .setHead .., _ => rfl

/-- The leader's queue grows at its end. -/
theorem Front.mono {s s' : State F} {q l : List F} (k : List F) {t : F} (hhead : s'.head = s.head)
    (hnext : ∀ n ∈ l, s'.next n = s.next n ∨ s.next n = .null) :
    ∀ {p : Pc F}, Front s q l t p → Front s' (q ++ k) (l ++ k) t p
  | .putHead, ⟨h, hq, hl⟩ => ⟨hhead.trans h, by rw [List.head?_append, hq]; rfl, by rw [hl]⟩
  | .unlock n, ⟨h, hl⟩ | .readNext n, ⟨h, hl⟩ | .casTail n, ⟨h, hl⟩ => ⟨hhead.trans h, by rw [hl]; rfl⟩
  | .wait n, ⟨h, hl, hq⟩ => ⟨hhead.trans h, by rw [hl]; rfl, List.append_ne_nil_of_left_ne_nil hq k⟩
  | .casNext n succ, ⟨h, hl, hn⟩ => by
    have hmem : n ∈ l := by rw [hl]; exact List.mem_cons_self
    obtain heq | hnull := hnext n hmem
    · exact ⟨hhead.trans h, by rw [hl]; rfl, heq.trans hn⟩
    · rw [hn] at hnull
      cases hnull
  | .setHead n succ, ⟨h, hl, hq⟩ => ⟨hhead.trans h, by rw [hl], by rw [List.head?_append, hq]; rfl⟩

section Facts
variable {s : State F} {q l : List F} {t f e : F}

theorem Places.idle_of [DecidableEq F] (h : Places s q) (ht : (s.pc t).waits = false) :
    s.place t = .idle := by
  by_contra hne
  rw [(h.waits t).mp hne] at ht
  cases ht

theorem Links.front_of (h : Links s q l) (ht : (s.pc t).leads = true) : Front s q l t (s.pc t) := by
  rcases h.front with ⟨u, hu⟩ | ⟨hnone, -⟩
  · rwa [h.leader t u ht hu.leads]
  · rw [hnone t] at ht
    cases ht

/-- `head` is somewhere: nobody leads. -/
theorem Links.head_some (h : Links s q l) (hhead : s.head = some e) :
    (∀ u, (s.pc u).leads = false) ∧ q.head? = some e ∧ l = q := by
  rcases h.front with ⟨u, hu⟩ | ⟨hnone, hq, hl⟩
  · exfalso
    have hnull : s.head = none := by
      cases hpc : s.pc u <;> rw [hpc] at hu <;> first | exact hu.1 | cases hu
    rw [hnull] at hhead
    cases hhead
  · exact ⟨hnone, hq ▸ hhead, hl⟩

/-- The queue is the line, or all of it but the node that is being popped. -/
theorem Links.suffix (h : Links s q l) : q <:+ l := by
  rcases h.front with ⟨u, hu⟩ | ⟨-, -, rfl⟩
  · cases hpc : s.pc u <;> rw [hpc] at hu
    case putHead =>
      rw [hu.2.2]
    case setHead n succ =>
      rw [hu.2.1]
    case unlock n | readNext n | casTail n =>
      rw [hu.2]
      exact List.suffix_cons n q
    case wait n | casNext n succ =>
      rw [hu.2.1]
      exact List.suffix_cons n q
    all_goals cases hu
  · exact List.suffix_refl l

/-- Every node of the line is queued, or it is being popped by who leads. -/
theorem Inv.mem_line [DecidableEq F] (h : Inv s q l) (hf : f ∈ l) :
    s.place f = .queued ∨ ∃ u, (s.pc u).leads = true ∧ (s.pc u).elem = some f := by
  have hqueued : f ∈ q → s.place f = .queued := (h.places.queued f).mpr
  rcases h.links.front with ⟨u, hu⟩ | ⟨-, -, hl⟩
  · have hlead := hu.leads
    have hpop : ∀ {n}, (s.pc u).elem = some n → l = n :: q →
        s.place f = .queued ∨ ∃ u, (s.pc u).leads = true ∧ (s.pc u).elem = some f := by
      rintro n hn rfl
      rcases List.mem_cons.mp hf with rfl | hf
      · exact .inr ⟨u, hlead, hn⟩
      · exact .inl (hqueued hf)
    cases hpc : s.pc u <;> rw [hpc] at hu
    case putHead => exact .inl (hqueued (hu.2.2 ▸ hf))
    case setHead n succ => exact .inl (hqueued (hu.2.1 ▸ hf))
    case unlock n | readNext n | casTail n => exact hpop (by rw [hpc]; rfl) hu.2
    case wait n | casNext n succ => exact hpop (by rw [hpc]; rfl) hu.2.1
    all_goals cases hu
  · exact .inl (hqueued (hl ▸ hf))

/-- The nodes of the line are in use. -/
theorem Inv.line_waits [DecidableEq F] (h : Inv s q l) (hf : f ∈ l) : (s.pc f).waits = true := by
  refine (h.places.waits f).mp ?_
  obtain hq | ⟨u, -, hu⟩ := h.mem_line hf
  · rw [hq]
    nofun
  · rw [(h.places.elem u f).mp hu]
    nofun

/-- Who is not in line yet. -/
theorem Inv.not_line [DecidableEq F] (h : Inv s q l) (hf : (s.pc f).waits = false) : f ∉ l := by
  intro hl
  rw [h.line_waits hl] at hf
  cases hf

/-- Nothing is in the line: nobody leads. -/
theorem Links.nobody (h : Links s q []) : q = [] ∧ (∀ u, (s.pc u).leads = false) ∧ s.head = none := by
  rcases h.front with ⟨u, hu⟩ | ⟨hnone, hhead, hl⟩
  · exfalso
    cases hpc : s.pc u <;> rw [hpc] at hu
    case putHead =>
      obtain ⟨-, hq, hl⟩ := hu
      rw [← hl] at hq
      cases hq
    case setHead n succ =>
      obtain ⟨-, hl, hq⟩ := hu
      rw [← hl] at hq
      cases hq
    case unlock n | readNext n | casTail n => cases hu.2
    case wait n | casNext n succ => cases hu.2.1
    all_goals cases hu
  · refine ⟨hl.symm, hnone, ?_⟩
    rw [hhead, ← hl]
    rfl

/-- Nobody but the holder of the lock is about to clear `head`. -/
theorem Links.clears (h : Links s q l) (ht : (s.pc t).locked = true) (u n : F) (hu : u ≠ t) :
    s.pc u ≠ .clearHead n := by
  intro hpc
  have hlocked : (s.pc u).locked = true := by rw [hpc]; rfl
  exact hu (locked_eq h.lock ht hlocked)

/-- While `head` is null, nobody is. -/
theorem Links.clears_null (h : Links s q l) (hhead : s.head = none) (u n : F) : s.pc u ≠ .clearHead n := by
  intro hpc
  have hsees := h.sees u
  rw [hpc] at hsees
  cases hhead.symm.trans hsees

end Facts

/-! ### One fibre moves -/

section Steps
variable [DecidableEq F] {s s' : State F} {q q' l l' : List F} {t : F} {p : Pc F}

/-- A step after which each node is where it was. -/
theorem Places.walk (h : Places s q) (hpc : s'.pc = Function.update s.pc t p)
    (hsame : s'.place = s.place ∧ s'.resumed = s.resumed ∧ s'.pushed = s.pushed ∧ s'.popped = s.popped ∧
      s'.returned = s.returned)
    (helem : p.elem = (s.pc t).elem) (hwaits : p.waits = (s.pc t).waits)
    (hearly : p.early = true → (s.pc t).early = true) : Places s' q := by
  obtain ⟨hplace, hresumed, hpushed, hpopped, hreturned⟩ := hsame
  refine ⟨?_, ?_, ?_, ?_, ?_, ?_, ?_⟩
  · rw [hpushed, hpopped]
    exact h.history
  · rw [hplace]
    exact h.queued
  · intro u e
    rw [hpc, hplace, same_at (f := Pc.elem) helem u]
    exact h.elem u e
  · rw [hplace, hresumed]
    exact h.resumed
  · intro f
    rw [hpc, hplace, same_at (f := Pc.waits) hwaits f]
    exact h.waits f
  · intro f hf
    rw [hpc] at hf
    rw [hplace]
    rcases eq_or_ne f t with rfl | hne
    · rw [Function.update_self] at hf
      exact h.early f (hearly hf)
    · rw [Function.update_of_ne hne] at hf
      exact h.early f hf
  · rw [hplace, hpushed, hreturned]
    exact h.count

/-- A step of `t` after which the node of `n` is at `r`. -/
theorem Places.move {n : F} {r : Place F} (h : Places s q) (hpc : s'.pc = Function.update s.pc t p)
    (hplace : s'.place = Function.update s.place n r) (hhistory : s'.pushed = s'.popped ++ q')
    (hqueued : (r = .queued ↔ n ∈ q') ∧ ∀ f, f ≠ n → (f ∈ q' ↔ f ∈ q))
    (hown : ∀ u, u ≠ t → (s.pc u).elem ≠ some n ∧ r ≠ .popping u)
    (helem : ∀ e, p.elem = some e ↔ if e = n then r = .popping t else s.place e = .popping t)
    (hresumed : s'.resumed n = r.resumed ∧ ∀ f, f ≠ n → s'.resumed f = s.resumed f)
    (hwaits : (r ≠ .idle ↔ (Function.update s.pc t p n).waits = true) ∧ (n ≠ t → p.waits = (s.pc t).waits))
    (hearly : ((Function.update s.pc t p n).early = true → r = .queued) ∧ (n ≠ t → p.early = false))
    (hcount : ∀ f, s'.pushed.count f + (s.place f).calls + s.returned.count f =
      s'.returned.count f + (Function.update s.place n r f).calls + s.pushed.count f) : Places s' q' := by
  have hother : ∀ f, f ≠ n → Function.update s.place n r f = s.place f := fun f hf =>
    Function.update_of_ne hf ..
  refine ⟨hhistory, fun f => ?_, fun u e => ?_, fun f => ?_, fun f => ?_, fun f hf => ?_, fun f => ?_⟩
  · rw [hplace]
    rcases eq_or_ne f n with rfl | hf
    · rw [Function.update_self]
      exact hqueued.1
    · rw [hother f hf, hqueued.2 f hf]
      exact h.queued f
  · rw [hpc, hplace]
    rcases eq_or_ne u t with rfl | hu
    · rw [Function.update_self, helem]
      rcases eq_or_ne e n with rfl | he
      · rw [if_pos rfl, Function.update_self]
      · rw [if_neg he, hother e he]
    · rw [Function.update_of_ne hu]
      rcases eq_or_ne e n with rfl | he
      · rw [Function.update_self]
        exact iff_of_false (hown u hu).1 (hown u hu).2
      · rw [hother e he]
        exact h.elem u e
  · rw [hplace]
    rcases eq_or_ne f n with rfl | hf
    · rw [Function.update_self]
      exact hresumed.1
    · rw [hother f hf, hresumed.2 f hf]
      exact h.resumed f
  · rw [hplace, hpc]
    rcases eq_or_ne f n with rfl | hf
    · rw [Function.update_self]
      exact hwaits.1
    · rw [hother f hf]
      rcases eq_or_ne f t with rfl | hft
      · rw [Function.update_self, hwaits.2 (Ne.symm hf)]
        exact h.waits f
      · rw [Function.update_of_ne hft]
        exact h.waits f
  · rw [hpc] at hf
    rw [hplace]
    rcases eq_or_ne f n with rfl | hfn
    · rw [Function.update_self]
      exact hearly.1 hf
    · rw [hother f hfn]
      rcases eq_or_ne f t with rfl | hft
      · rw [Function.update_self, hearly.2 (Ne.symm hfn)] at hf
        cases hf
      · rw [Function.update_of_ne hft] at hf
        exact h.early f hf
  · have hcalls := h.count f
    have hnew := hcount f
    rw [hplace]
    omega

/-- A fibre queues its node. -/
theorem Places.push (h : Places s q) (hpc : s.pc t = .swing) (hp : p = .putHead ∨ ∃ pred, p = .prepare pred) :
    Places (State.goto { s.setPlace t .queued with tail := some t, pushed := s.pushed ++ [t] } t p)
      (q ++ [t]) := by
  have hidle : s.place t = .idle := h.idle_of (by rw [hpc]; rfl)
  have hpelem : p.elem = none := by rcases hp with rfl | ⟨pred, rfl⟩ <;> rfl
  have hpwaits : p.waits = true := by rcases hp with rfl | ⟨pred, rfl⟩ <;> rfl
  refine h.move rfl rfl ?_ ⟨?_, fun f hf => ?_⟩ (fun u _ => ⟨fun hu => ?_, nofun⟩) (fun e => ?_)
    ⟨?_, fun f _ => rfl⟩
    ⟨?_, fun hne => absurd rfl hne⟩ ⟨fun _ => rfl, fun hne => absurd rfl hne⟩ fun f => ?_
  · change s.pushed ++ [t] = s.popped ++ (q ++ [t])
    rw [h.history, List.append_assoc]
  · exact iff_of_true rfl (List.mem_append_right q (List.mem_singleton_self t))
  · rw [List.mem_append, List.mem_singleton, or_iff_left hf]
  · rw [(h.elem u t).mp hu] at hidle
    cases hidle
  · rw [hpelem]
    refine iff_of_false nofun ?_
    split
    · nofun
    · rw [← h.elem, hpc]
      nofun
  · change s.resumed t = 0
    rw [h.resumed, hidle]
    rfl
  · rw [Function.update_self]
    exact iff_of_true nofun hpwaits
  · change (s.pushed ++ [t]).count f + _ + _ = s.returned.count f + _ + _
    rw [List.count_append]
    rcases eq_or_ne f t with rfl | hf
    · rw [Function.update_self, hidle, List.count_singleton_self, Place.calls, Place.calls]
      omega
    · rw [Function.update_of_ne hf, List.count_singleton, beq_false_of_ne (Ne.symm hf)]
      simp only [Bool.false_eq_true, if_false]
      omega

/-- The first of the queue is taken out of it. -/
theorem Places.take {n : F} (h : Places s (n :: q)) (hn : n ∉ q) (hpc : s.pc t = .clearHead n)
    (hearly : (s.pc n).early = false) :
    Places (State.goto { s.setPlace n (.popping t) with head := none, popped := s.popped ++ [n] } t
      (.unlock n)) q := by
  have hplace : s.place n = .queued := (h.queued n).mpr List.mem_cons_self
  have hnt : n ≠ t := by
    rintro rfl
    have hwaits := (h.waits n).mp (by rw [hplace]; nofun)
    rw [hpc] at hwaits
    cases hwaits
  refine h.move rfl rfl ?_ ⟨iff_of_false nofun hn, fun f hf => ?_⟩ (fun u hu => ⟨fun helem => ?_, ?_⟩)
    (fun e => ?_) ⟨?_, fun f _ => rfl⟩ ⟨?_, fun _ => by rw [hpc]; rfl⟩ ⟨fun he => ?_, fun _ => rfl⟩
      fun f => ?_
  · change s.pushed = s.popped ++ [n] ++ q
    rw [h.history, List.append_assoc]
    rfl
  · exact (List.mem_cons.trans (or_iff_right hf)).symm
  · rw [(h.elem u n).mp helem] at hplace
    cases hplace
  · exact fun heq => hu (Place.popping.inj heq).symm
  · rw [Pc.elem, Option.some.injEq]
    rcases eq_or_ne e n with rfl | he
    · simp
    · rw [if_neg he, ← h.elem, hpc]
      exact iff_of_false (Ne.symm he) nofun
  · change s.resumed n = 0
    rw [h.resumed, hplace]
    rfl
  · rw [Function.update_of_ne hnt, ← h.waits, hplace]
    exact iff_of_true nofun nofun
  · rw [Function.update_of_ne hnt, hearly] at he
    cases he
  · rcases eq_or_ne f n with rfl | hf
    · change s.pushed.count f + _ + _ = s.returned.count f + _ + s.pushed.count f
      rw [Function.update_self, hplace, Place.calls, Place.calls]
      omega
    · change s.pushed.count f + _ + _ = s.returned.count f + _ + s.pushed.count f
      rw [Function.update_of_ne hf]
      omega

/-- The one popped is resumed. -/
theorem Places.wake {n : F} (h : Places s q) (hpc : s.pc t = .resume n) (hzero : s.resumed n = 0) :
    Places (State.returns { s.setPlace n .woken with
      resumed := Function.update s.resumed n (s.resumed n + 1) } t (some n)) q := by
  have hplace : s.place n = .popping t := (h.elem t n).mp (by rw [hpc]; rfl)
  have hnt : n ≠ t := by
    rintro rfl
    have hwaits := (h.waits n).mp (by rw [hplace]; nofun)
    rw [hpc] at hwaits
    cases hwaits
  refine h.move rfl rfl h.history ⟨iff_of_false nofun fun hq => ?_, fun f _ => Iff.rfl⟩
    (fun u hu => ⟨fun helem => ?_, nofun⟩) (fun e => iff_of_false nofun ?_) ⟨?_, fun f hf => ?_⟩
    ⟨?_, fun _ => by rw [hpc]; rfl⟩ ⟨fun he => ?_, fun _ => rfl⟩ fun f => ?_
  · rw [(h.queued n).mpr hq] at hplace
    cases hplace
  · rw [(h.elem u n).mp helem] at hplace
    exact hu (Place.popping.inj hplace)
  · split
    · nofun
    · next he =>
      rw [← h.elem, hpc]
      exact fun heq => he (Option.some.inj heq).symm
  · change Function.update s.resumed n (s.resumed n + 1) n = 1
    rw [Function.update_self, hzero]
  · exact Function.update_of_ne hf ..
  · rw [Function.update_of_ne hnt, ← h.waits, hplace]
    exact iff_of_true nofun nofun
  · rw [Function.update_of_ne hnt] at he
    rw [h.early n he] at hplace
    cases hplace
  · change s.pushed.count f + _ + _ = s.returned.count f + _ + s.pushed.count f
    rcases eq_or_ne f n with rfl | hf
    · rw [Function.update_self, hplace, Place.calls, Place.calls]
      omega
    · rw [Function.update_of_ne hf]
      omega

/-- A fibre comes back from `suspend`. -/
theorem Places.leave {first : Bool} (h : Places s q) (hpc : s.pc t = .suspending first)
    (hres : s.resumed t ≠ 0) (hp : p = .checking ∨ p = .out) :
    s.place t = .woken ∧ Places (State.goto { s.setPlace t .idle with
      resumed := Function.update s.resumed t (s.resumed t - 1)
      returned := s.returned ++ [t] } t p) q := by
  have hplace : s.place t = .woken := by
    rw [h.resumed] at hres
    cases hplace : s.place t <;> rw [hplace] at hres <;> first | rfl | exact absurd rfl hres
  have hpelem : p.elem = none := by rcases hp with rfl | rfl <;> rfl
  have hpwaits : p.waits = false := by rcases hp with rfl | rfl <;> rfl
  have hpearly : p.early = false := by rcases hp with rfl | rfl <;> rfl
  refine ⟨hplace, h.move rfl rfl h.history ⟨iff_of_false nofun fun hq => ?_, fun f _ => Iff.rfl⟩
    (fun u _ => ⟨fun helem => ?_, nofun⟩) (fun e => ?_) ⟨?_, fun f hf => ?_⟩
    ⟨?_, fun hne => absurd rfl hne⟩ ⟨fun he => ?_, fun hne => absurd rfl hne⟩ fun f => ?_⟩
  · rw [(h.queued t).mpr hq] at hplace
    cases hplace
  · rw [(h.elem u t).mp helem] at hplace
    cases hplace
  · rw [hpelem]
    refine iff_of_false nofun ?_
    split
    · nofun
    · rw [← h.elem, hpc]
      nofun
  · change Function.update s.resumed t (s.resumed t - 1) t = 0
    rw [Function.update_self, h.resumed, hplace]
    rfl
  · exact Function.update_of_ne hf ..
  · rw [Function.update_self, hpwaits]
    exact iff_of_false (fun hne => hne rfl) Bool.false_ne_true
  · rw [Function.update_self, hpearly] at he
    cases he
  · change s.pushed.count f + _ + _ = (s.returned ++ [t]).count f + _ + s.pushed.count f
    rw [List.count_append]
    rcases eq_or_ne f t with rfl | hf
    · rw [Function.update_self, hplace, List.count_singleton_self, Place.calls, Place.calls]
      omega
    · rw [Function.update_of_ne hf, List.count_singleton, beq_false_of_ne (Ne.symm hf)]
      simp only [Bool.false_eq_true, if_false]
      omega

end Steps

end Libfibre.MCSQueue
