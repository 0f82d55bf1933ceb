import Libfibre.ProcessorRing.Placement
import Libfibre.Schemes.Transition
import Mathlib.Data.Option.Basic

/-! Work stealing (`BaseProcessor.cc`) runs along the ring without `ringLock`, while processors are let in.
    Every pointer write of an insertion is a step of its own here, and so is every link that a thief
    follows:

        place ◀──▶ x             Prev(proc) = place    Prev(x) = proc        for the ring, both ways
              proc               Next(proc) = x                              proc leads on to the ring
                                 Next(place) = proc                          the ring leads to proc

    The last write is the one by which `proc` is met. It leads on by then, so whoever is on the ring
    stays on it. The insertions come in front of a thief or behind it; it has at most the members to go
    through. -/

namespace Libfibre.ProcessorRing
open LinkPath Libfibre.Ring Transition
open IntrusiveList (Holds before behind Fresh)

/-- The write that comes next in `addProcessor`: of `combine_after`, or of `close` and `placeProc`. -/
inductive Phase where
  | prevFirst
  | prevNext
  | nextLast
  | nextPrev
  | closePrev
  | closeNext
  | setPlace
  | setCount
  deriving DecidableEq

/-- Does it make the ring lead to the new processor? -/
def Phase.publishes : Phase → Bool
  | .nextPrev | .closeNext => true
  | _ => false

variable {P : Type} [DecidableEq P]

/-- One write, and the one after it. -/
def write (s : Sched P) (proc : P) : Phase → Option (Sched P × Option Phase)
  | .prevFirst => do
    let place ← s.placeProc
    return ({ s with ring := s.ring.setPrev proc place }, some .prevNext)
  | .prevNext => do
    let place ← s.placeProc
    return ({ s with ring := s.ring.setPrev (← s.ring.next place) proc }, some .nextLast)
  | .nextLast => do
    let place ← s.placeProc
    return ({ s with ring := s.ring.setNext proc (s.ring.next place) }, some .nextPrev)
  | .nextPrev => do
    let place ← s.placeProc
    return ({ s with ring := s.ring.setNext place proc }, some .setCount)
  | .closePrev => some ({ s with ring := s.ring.setPrev proc proc }, some .closeNext)
  | .closeNext => some ({ s with ring := s.ring.setNext proc proc }, some .setPlace)
  | .setPlace => some ({ s with placeProc := some proc }, some .setCount)
  | .setCount => some ({ s with ringCount := s.ringCount + 1 }, none)

/-- The first write of `addProcessor`, after the assertions of `insert_after`. -/
def start (s : Sched P) (proc : P) : Option Phase :=
  match s.placeProc with
  | none => some .closePrev
  | some place =>
    if s.ring.prev proc = none ∧ s.ring.next proc = none ∧ linked s.ring place then some .prevFirst
    else none

structure State (P : Type) where
  sched : Sched P
  /-- Those whom the ring leads to. -/
  members : List P
  /-- The insertion under `ringLock`. -/
  adding : Option (P × Phase)
  /-- `victim` of a `searchSteal`, by the processor that it runs on. -/
  victim : P → Option P
  /-- The victims that it has tried. -/
  trail : P → List P

inductive Act (P : Type) where
  | add (proc : P)
  | write
  | place
  | search (thief : P)
  | follow (thief : P)
  | stop (thief : P)

def step (s : State P) : Act P → Option (State P)
  | .add p => do
    guard (s.adding = none ∧ p ∉ s.members)
    return { s with adding := some (p, ← start s.sched p) }
  | .write => do
    let (p, phase) ← s.adding
    let (sched, phase') ← write s.sched p phase
    return { s with
      sched := sched
      members := if phase.publishes then p :: s.members else s.members
      adding := phase'.map fun phase' => (p, phase') }
  | .place => do
    guard (s.adding = none)
    return { s with sched := (← placement s.sched).1 }
  -- victim = ProcessorRing::next(*this)
  | .search p => do
    guard (p ∈ s.members ∧ s.victim p = none)
    let v ← s.sched.ring.next p
    return { s with
      victim := Function.update s.victim p (some v)
      trail := Function.update s.trail p [] }
  -- victim = ProcessorRing::next(*victim)
  | .follow p => do
    let v ← s.victim p
    guard (v ≠ p)
    let w ← s.sched.ring.next v
    return { s with
      victim := Function.update s.victim p (some w)
      trail := Function.update s.trail p (s.trail p ++ [v]) }
  -- back at itself, or something found
  | .stop p => do
    let _ ← s.victim p
    return { s with victim := Function.update s.victim p none }

/-- From any state that the operations have led to, without an insertion or a search under way. -/
def traversal : System (State P) (Act P) where
  init s := ProcessorRing.Reach s.sched s.members ∧ s.adding = none ∧ ∀ p, s.victim p = none
  step := step

/-! ### An insertion, write by write -/

/-- Where an insertion of `p` into `s0` has got to. -/
inductive Midway (s0 : Sched P) (m0 : List P) (p : P) : Phase → Sched P → List P → Prop where
  | prevFirst {a : P} (place : s0.placeProc = some a) : Midway s0 m0 p .prevFirst s0 m0
  | prevNext {a : P} (place : s0.placeProc = some a) :
      Midway s0 m0 p .prevNext { s0 with ring := s0.ring.setPrev p a } m0
  | nextLast {a x : P} (place : s0.placeProc = some a) (next : s0.ring.next a = some x) :
      Midway s0 m0 p .nextLast { s0 with ring := (s0.ring.setPrev p a).setPrev x p } m0
  | nextPrev {a x : P} (place : s0.placeProc = some a) (next : s0.ring.next a = some x) :
      Midway s0 m0 p .nextPrev
        { s0 with ring := ((s0.ring.setPrev p a).setPrev x p).setNext p (some x) } m0
  | inserted {a x : P} (place : s0.placeProc = some a) (next : s0.ring.next a = some x) :
      Midway s0 m0 p .setCount { s0 with ring := splice s0.ring a x p p } (p :: m0)
  | closePrev (place : s0.placeProc = none) : Midway s0 m0 p .closePrev s0 m0
  | closeNext (place : s0.placeProc = none) :
      Midway s0 m0 p .closeNext { s0 with ring := s0.ring.setPrev p p } m0
  | closed (place : s0.placeProc = none) :
      Midway s0 m0 p .setPlace { s0 with ring := close s0.ring p p } (p :: m0)
  | placed (place : s0.placeProc = none) :
      Midway s0 m0 p .setCount { s0 with ring := close s0.ring p p, placeProc := some p } (p :: m0)

/-- What a write does to the links that thieves follow. -/
inductive Grows : (P → Option P) → List P → (P → Option P) → List P → Prop where
  | same {next : P → Option P} {m : List P} : Grows next m next m
  /-- A processor off the ring is linked. -/
  | off {next : P → Option P} {m : List P} {p : P} {q : Option P} (hp : p ∉ m) :
      Grows next m (Function.update next p q) m
  /-- A member is linked to a processor that leads on to where it led to. -/
  | insert {next : P → Option P} {m : List P} {a p : P} (ha : a ∈ m) (hp : p ∉ m)
      (hnext : next p = next a) : Grows next m (Function.update next a (some p)) (p :: m)
  | first {next : P → Option P} {p : P} : Grows next [] (Function.update next p (some p)) [p]

variable {s0 s : Sched P} {m0 m : List P} {a p q v x : P} {phase : Phase} {l b w : List P}
  {next next' : P → Option P}

omit [DecidableEq P] in
/-- The processor behind which it is let in is a member. -/
theorem place_mem (hv : Valid s m) (hplace : s.placeProc = some a) :
    a ∈ m ∧ ∃ l, Holds s.ring a l ∧ (a :: l).Perm m := by
  rcases hv.ring with ⟨hnone, -⟩ | ⟨a', l, ha', hh, hperm⟩
  · rw [hnone] at hplace
    cases hplace
  · obtain rfl := Option.some.inj (ha'.symm.trans hplace)
    exact ⟨hperm.mem_iff.mp List.mem_cons_self, l, hh, hperm⟩

omit [DecidableEq P] in
theorem no_members (hv : Valid s m) (hplace : s.placeProc = none) : m = [] := by
  rcases hv.ring with ⟨-, hm⟩ | ⟨a', l, ha', -⟩
  · exact hm
  · rw [hplace] at ha'
    cases ha'

/-- Every write has a value, leads on in the insertion, and grows the ring by one at most. -/
theorem write_spec (hv : Valid s0 m0) (hp : p ∉ m0) (hmid : Midway s0 m0 p phase s m) :
    ∃ s' phase', write s p phase = some (s', phase') ∧
      Grows s.ring.next m s'.ring.next (if phase.publishes then p :: m else m) ∧
      match phase' with
      | none => Valid s' (if phase.publishes then p :: m else m)
      | some phase' => Midway s0 m0 p phase' s' (if phase.publishes then p :: m else m) := by
  cases hmid with
  | prevFirst hplace =>
    refine ⟨_, some .prevNext, ?_, ?_, Midway.prevNext hplace⟩
    · simp [write, hplace]
    · exact .same
  | @prevNext a hplace =>
    obtain ⟨-, l, hh, -⟩ := place_mem hv hplace
    refine ⟨_, some .nextLast, ?_, ?_, Midway.nextLast hplace (next_some hh)⟩
    · simp [write, hplace, Heap.setPrev, next_some hh]
    · exact .same
  | @nextLast a x hplace hnext =>
    refine ⟨_, some .nextPrev, ?_, ?_, Midway.nextPrev hplace hnext⟩
    · simp [write, hplace, Heap.setPrev, hnext]
    · exact .off hp
  | @nextPrev a x hplace hnext =>
    obtain ⟨ha, -⟩ := place_mem hv hplace
    have hap : a ≠ p := fun heq => hp (heq ▸ ha)
    refine ⟨_, some .setCount, ?_, ?_, Midway.inserted hplace hnext⟩
    · simp [write, hplace, Heap.setNext, Heap.setPrev, splice]
    · refine .insert ha hp ?_
      simp [Heap.setNext, Heap.setPrev, hap, hnext]
  | @inserted a x hplace hnext =>
    obtain ⟨-, l, hh, hperm⟩ := place_mem hv hplace
    obtain rfl : behind a l = x := Option.some.inj ((next_some hh).symm.trans hnext)
    have hdone := add_more hv hh hperm hp
    rw [← hplace] at hdone
    exact ⟨_, none, rfl, .same, hdone⟩
  | closePrev hplace =>
    refine ⟨_, some .closeNext, rfl, ?_, Midway.closeNext hplace⟩
    exact .same
  | closeNext hplace =>
    obtain rfl := no_members hv hplace
    refine ⟨_, some .setPlace, rfl, ?_, Midway.closed hplace⟩
    exact .first
  | closed hplace =>
    refine ⟨_, some .setCount, rfl, ?_, Midway.placed hplace⟩
    exact .same
  | placed hplace =>
    obtain rfl := no_members hv hplace
    exact ⟨_, none, rfl, .same, add_first hv⟩

theorem start_spec (hv : Valid s m) (hp : p ∉ m) :
    ∃ phase, start s p = some phase ∧ Midway s m p phase s m := by
  cases hplace : s.placeProc with
  | none => exact ⟨_, by simp [start, hplace], .closePrev hplace⟩
  | some a =>
    obtain ⟨-, l, hh, -⟩ := place_mem hv hplace
    obtain ⟨hnext, hprev⟩ := hv.outside p hp
    have hlinked := hh.linked List.mem_cons_self
    exact ⟨_, by simp [start, hplace, hnext, hprev, linked, hlinked], .prevFirst hplace⟩

/-! ### A search, link by link -/

/-- The ring from the thief on: what it has passed, and what it has before it, `v` first. What it has
    tried is among what it has passed. -/
def Search (next : P → Option P) (m : List P) (p v : P) (trail : List P) : Prop :=
  ∃ b w, Circle next (p :: b ++ w) ∧ (p :: b ++ w).Perm m ∧ v = behind p w ∧ trail.Sublist b

/-- A search keeps its way whatever is let into the ring. -/
theorem Search.grows {trail : List P} (hs : Search next m p v trail) (hm : m.Nodup)
    {m' : List P} (hg : Grows next m next' m') : Search next' m' p v trail := by
  obtain ⟨b, w, hcircle, hperm, hvw, hsub⟩ := hs
  cases hg with
  | same => exact ⟨b, w, hcircle, hperm, hvw, hsub⟩
  | off hq => exact ⟨b, w, hcircle.other fun hm => hq (hperm.mem_iff.mp hm), hperm, hvw, hsub⟩
  | @insert _ a q ha hq hnext =>
    have hal : a ∈ p :: b ++ w := hperm.mem_iff.mpr ha
    have hql : q ∉ p :: b ++ w := fun hm => hq (hperm.mem_iff.mp hm)
    have hnodup : (p :: b ++ w).Nodup := hperm.symm.nodup hm
    have hput : ∀ u v, p :: b ++ w = u ++ v → (u ++ [q] ++ v).Perm (q :: m) := by
      intro u v heq
      rw [List.append_assoc]
      exact List.perm_middle.trans ((heq ▸ hperm).cons q)
    have hput_nodup : ∀ u v, p :: b ++ w = u ++ v → (u ++ [q] ++ v).Nodup := fun u v heq =>
      (hput u v heq).symm.nodup (List.nodup_cons.mpr ⟨hq, hm⟩)
    rcases List.mem_append.mp hal with ha | ha
    · -- behind the thief, or right behind what it tried last: it will not meet `q`
      obtain ⟨u, v, hsplit, hlast⟩ := IntrusiveList.exists_place (a := p) (l := b) ha
      obtain ⟨rfl, rfl⟩ : b = u ++ v ∧ IntrusiveList.before p u = a := ⟨hsplit, hlast⟩
      have heq : p :: (u ++ v) ++ w = (p :: u) ++ (v ++ w) := by simp
      refine ⟨u ++ [q] ++ v, w, ?_, ?_, hvw, hsub.trans ?_⟩
      · have hinsert := Circle.insert (u := p :: u) (v := v ++ w) (heq ▸ hcircle)
          (hput_nodup _ _ heq) (IntrusiveList.last_before p u) hnext
        simpa [List.append_assoc] using hinsert
      · have hperm' := hput _ _ heq
        simpa [List.append_assoc] using hperm'
      · rw [List.append_assoc]
        exact List.Sublist.append_left (List.sublist_append_right [q] v) u
    · obtain ⟨u, v, rfl⟩ := List.append_of_mem ha
      have heq : p :: b ++ (u ++ a :: v) = (p :: b ++ (u ++ [a])) ++ v := by simp
      have hlast : (p :: b ++ (u ++ [a])).getLast? = some a := by
        rw [List.getLast?_append_of_ne_nil _ (by simp), List.getLast?_concat]
      refine ⟨b, u ++ [a] ++ [q] ++ v, ?_, ?_, ?_, hsub⟩
      · have hinsert := Circle.insert (heq ▸ hcircle) (hput_nodup _ _ heq) hlast hnext
        simpa [List.append_assoc] using hinsert
      · have hperm' := hput _ _ heq
        simpa [List.append_assoc] using hperm'
      · rw [hvw]
        cases u <;> rfl
  | first => exact absurd hperm.length_eq (by simp)

omit [DecidableEq P] in
/-- The victim is a member, and there is a link from it to follow. -/
theorem Search.at_member {trail : List P} (hs : Search next m p v trail) :
    v ∈ m ∧ ∃ q, next v = some q := by
  obtain ⟨b, w, hcircle, hperm, rfl, -⟩ := hs
  have hmem : behind p w ∈ p :: b ++ w := by
    have hmem' := IntrusiveList.behind_mem p b w
    rwa [← List.cons_append] at hmem'
  obtain ⟨q, -, hq⟩ := hcircle.next_mem hmem
  exact ⟨hperm.mem_iff.mp hmem, q, hq⟩

omit [DecidableEq P] in
/-- The next link takes it one further on. -/
theorem Search.follow {trail : List P} (hs : Search next m p v trail) (hvp : v ≠ p)
    (hq : next v = some q) : Search next m p q (trail ++ [v]) := by
  obtain ⟨b, w, hcircle, hperm, hvw, hsub⟩ := hs
  cases w with
  | nil => exact absurd hvw hvp
  | cons c w =>
    obtain rfl : v = c := hvw
    have heq : p :: b ++ v :: w = p :: (b ++ [v]) ++ w := by simp
    refine ⟨b ++ [v], w, heq ▸ hcircle, heq ▸ hperm, ?_, hsub.append (.refl _)⟩
    have hrotated : Circle next (v :: (w ++ (p :: b))) := hcircle.rotate
    have hnext := hrotated.next_eq
    rw [hq] at hnext
    cases w with
    | nil => exact Option.some.inj hnext
    | cons d w => exact Option.some.inj hnext

omit [DecidableEq P] in
theorem search_start (hcircle : Circle next l) (hperm : l.Perm m) (hp : p ∈ m)
    (hq : next p = some q) : Search next m p q [] := by
  obtain ⟨u, w, rfl⟩ := List.append_of_mem (hperm.mem_iff.mpr hp)
  have hrotated : Circle next (p :: (w ++ u)) := hcircle.rotate
  have hperm' : (p :: (w ++ u)).Perm m :=
    (@List.perm_append_comm _ (p :: w) u).trans hperm
  refine ⟨[], w ++ u, hrotated, hperm', ?_, .refl _⟩
  have hnext := hrotated.next_eq
  rw [hq] at hnext
  cases hwu : w ++ u with
  | nil => rw [hwu] at hnext; exact Option.some.inj hnext
  | cons d r => rw [hwu] at hnext; exact Option.some.inj hnext

/-- The members stay a circle. -/
theorem circle_grows (hcircle : Circle next l) (hperm : l.Perm m) (hm : m.Nodup) {m' : List P}
    (hg : Grows next m next' m') : ∃ l', Circle next' l' ∧ l'.Perm m' ∧ m'.Nodup := by
  cases hg with
  | same => exact ⟨l, hcircle, hperm, hm⟩
  | off hq => exact ⟨l, hcircle.other fun hq' => hq (hperm.mem_iff.mp hq'), hperm, hm⟩
  | @insert _ a q ha hq hnext =>
    obtain ⟨u, v, rfl⟩ := List.append_of_mem (hperm.mem_iff.mpr ha)
    have hput : (u ++ [a] ++ [q] ++ v).Perm (q :: m) := by
      have hmiddle : (u ++ [a] ++ ([q] ++ v)).Perm (q :: (u ++ [a] ++ v)) := List.perm_middle
      rw [List.append_assoc _ [q]]
      refine hmiddle.trans (List.Perm.cons q ?_)
      rwa [List.append_assoc]
    have hq' : (q :: m).Nodup := List.nodup_cons.mpr ⟨hq, hm⟩
    rw [List.append_cons] at hcircle
    exact ⟨_, hcircle.insert (hput.symm.nodup hq') List.getLast?_concat hnext, hput, hq'⟩
  | @first q =>
    exact ⟨[q], ⟨Function.update_self .., trivial⟩, .refl _, List.nodup_singleton q⟩

/-! ### Every interleaving -/

/-- INVARIANT: the insertion under way is at one of its writes; the members are a circle all along; every
    search is on its way round it. -/
structure Inv (s : State P) : Prop where
  idle : s.adding = none → Valid s.sched s.members
  midway : ∀ p phase, s.adding = some (p, phase) →
    ∃ s0 m0, Valid s0 m0 ∧ p ∉ m0 ∧ Midway s0 m0 p phase s.sched s.members
  circle : ∃ l, Circle s.sched.ring.next l ∧ l.Perm s.members ∧ s.members.Nodup
  searches : ∀ p v, s.victim p = some v → Search s.sched.ring.next s.members p v (s.trail p)

variable {s t : State P}

omit [DecidableEq P] in
theorem inv_init [DecidableEq P] (h : traversal.init s) : Inv s := by
  obtain ⟨hreach, hadd, hvictim⟩ := h
  have hv := reach_valid hreach
  refine ⟨fun _ => hv, fun p phase hp => ?_, ?_, fun p v hp => ?_⟩
  · rw [hadd] at hp
    cases hp
  · rcases hv.ring with ⟨-, hm⟩ | ⟨a, l, -, hh, hperm⟩
    · exact ⟨[], trivial, by rw [hm], by rw [hm]; exact List.nodup_nil⟩
    · exact ⟨a :: l, hh.forth, hperm, hperm.nodup hh.nodup⟩
  · rw [hvictim] at hp
    cases hp

theorem inv_write (hI : Inv s) (h : step s .write = some t) : Inv t := by
  simp only [step, Option.bind_eq_bind, Option.bind_eq_some_iff] at h
  obtain ⟨⟨p, phase⟩, hadd, ⟨sched, phase'⟩, hwrite, hdone⟩ := h
  obtain rfl := Option.some.inj hdone
  obtain ⟨s0, m0, hv, hp, hmid⟩ := hI.midway p phase hadd
  obtain ⟨sched', phase'', heq, hgrows, hnext⟩ := write_spec hv hp hmid
  obtain ⟨rfl, rfl⟩ := Prod.mk.inj (Option.some.inj (heq.symm.trans hwrite))
  obtain ⟨l, hcircle, hperm, hm⟩ := hI.circle
  refine ⟨fun hnone => ?_, fun q phase hq => ?_, circle_grows hcircle hperm hm hgrows,
    fun q v hq => (hI.searches q v hq).grows hm hgrows⟩
  · obtain rfl := Option.map_eq_none_iff.mp hnone
    exact hnext
  · obtain ⟨phase', rfl, hpair⟩ := Option.map_eq_some_iff.mp hq
    obtain ⟨rfl, rfl⟩ := Prod.mk.inj hpair
    exact ⟨s0, m0, hv, hp, hnext⟩

theorem inv_add (hI : Inv s) {p : P} (h : step s (.add p) = some t) : Inv t := by
  simp only [step, Option.bind_eq_bind, Option.bind_eq_some_iff, Option.guard_eq_some'] at h
  obtain ⟨-, ⟨hadd, hp⟩, phase, hstart, hdone⟩ := h
  obtain rfl := Option.some.inj hdone
  have hv := hI.idle hadd
  obtain ⟨phase', hstart', hmid⟩ := start_spec hv hp
  obtain rfl := Option.some.inj (hstart.symm.trans hstart')
  refine ⟨fun hnone => ?_, fun q phase hq => ?_, hI.circle, hI.searches⟩
  · cases hnone
  · cases hq
    exact ⟨_, _, hv, hp, hmid⟩

theorem inv_place (hI : Inv s) (h : step s .place = some t) : Inv t := by
  simp only [step, Option.bind_eq_bind, Option.bind_eq_some_iff, Option.guard_eq_some'] at h
  obtain ⟨-, hadd, ⟨sched, q⟩, hplace, hdone⟩ := h
  obtain rfl := Option.some.inj hdone
  have hv := hI.idle hadd
  have hring : sched.ring = s.sched.ring := by
    simp only [placement, Option.bind_eq_bind, Option.bind_eq_some_iff] at hplace
    obtain ⟨_, _, _, _, heq⟩ := hplace
    obtain ⟨rfl, -⟩ := Prod.mk.inj (Option.some.inj heq)
    rfl
  have hm : s.members ≠ [] := by
    intro hm
    rcases hv.ring with ⟨hnone, -⟩ | ⟨a, l, -, -, hperm⟩
    · simp [placement, hnone] at hplace
    · rw [hm] at hperm
      exact absurd hperm.length_eq (by simp)
  obtain ⟨sched', hexec, hv'⟩ := place_valid hv hm
  rw [Op.exec, hplace, Option.map_some, Option.some.injEq] at hexec
  subst hexec
  refine ⟨fun _ => hv', fun q phase hq => ?_, ?_, fun q v hq => ?_⟩
  · rw [hadd] at hq
    cases hq
  · rw [hring]
    exact hI.circle
  · rw [hring]
    exact hI.searches q v hq

/-- A step of a thief concerns its own search only. -/
theorem Inv.thief (hI : Inv s) (p : P) {o : Option P} {k : List P}
    (hs : ∀ v, o = some v → Search s.sched.ring.next s.members p v k) :
    Inv { s with victim := Function.update s.victim p o, trail := Function.update s.trail p k } := by
  refine ⟨hI.idle, hI.midway, hI.circle, fun q v hq => ?_⟩
  change Function.update s.victim p o q = some v at hq
  change Search _ _ q v (Function.update s.trail p k q)
  rcases eq_or_ne q p with rfl | hqp
  · rw [Function.update_self] at hq ⊢
    exact hs v hq
  · rw [Function.update_of_ne hqp] at hq ⊢
    exact hI.searches q v hq

theorem inv_step (hI : Inv s) {a : Act P} (h : step s a = some t) : Inv t := by
  cases a with
  | add p => exact inv_add hI h
  | write => exact inv_write hI h
  | place => exact inv_place hI h
  | search p =>
    simp only [step, Option.bind_eq_bind, Option.bind_eq_some_iff, Option.guard_eq_some'] at h
    obtain ⟨-, ⟨hp, -⟩, v, hv, hdone⟩ := h
    obtain rfl := Option.some.inj hdone
    obtain ⟨l, hcircle, hperm, -⟩ := hI.circle
    refine hI.thief p fun w hw => ?_
    obtain rfl := Option.some.inj hw
    exact search_start hcircle hperm hp hv
  | follow p =>
    simp only [step, Option.bind_eq_bind, Option.bind_eq_some_iff, Option.guard_eq_some'] at h
    obtain ⟨v, hv, -, hvp, q, hq, hdone⟩ := h
    obtain rfl := Option.some.inj hdone
    refine hI.thief p fun w hw => ?_
    obtain rfl := Option.some.inj hw
    exact (hI.searches p v hv).follow hvp hq
  | stop p =>
    simp only [step, Option.bind_eq_bind, Option.bind_eq_some_iff] at h
    obtain ⟨v, hv, hdone⟩ := h
    obtain rfl := Option.some.inj hdone
    have hstop := hI.thief p (o := none) (k := s.trail p) fun w hw => (by cases hw)
    rwa [Function.update_eq_self] at hstop

theorem reach_inv (h : Transition.Reach traversal s) : Inv s :=
  h.inv (fun _ => inv_init) fun _ _ _ hI hs => inv_step hI hs

/-- Left to itself, a search gets back to where it began. -/
theorem follow_back {p v : P} (hv : s.victim p = some v) {b w : List P}
    (hcircle : Circle s.sched.ring.next (p :: b ++ w)) (hnodup : (p :: b ++ w).Nodup)
    (hvw : v = behind p w) :
    ∃ t, Transition.exec traversal s (List.replicate w.length (.follow p)) = some t ∧
      t.victim p = some p := by
  induction w generalizing s v b with
  | nil => exact ⟨s, rfl, hv.trans (congrArg some hvw)⟩
  | cons c w ih =>
    obtain rfl : v = c := hvw
    have heq : p :: b ++ v :: w = p :: (b ++ [v]) ++ w := by simp
    have hvp : v ≠ p := by
      rintro rfl
      exact (List.nodup_cons.mp hnodup).1 (by simp)
    have hrotated : Circle s.sched.ring.next (v :: (w ++ (p :: b))) := hcircle.rotate
    have hnext : s.sched.ring.next v = some (behind p w) := by
      rw [hrotated.next_eq]
      cases w <;> rfl
    rw [heq] at hcircle hnodup
    have hstep : traversal.step s (.follow p) = some { s with
        victim := Function.update s.victim p (some (behind p w))
        trail := Function.update s.trail p (s.trail p ++ [v]) } := by
      simp [traversal, step, hv, hvp, hnext, guard]
    obtain ⟨t, hexec, ht⟩ := ih (s := { s with
        victim := Function.update s.victim p (some (behind p w))
        trail := Function.update s.trail p (s.trail p ++ [v]) }) (Function.update_self ..) hcircle
      hnodup rfl
    refine ⟨t, ?_, ht⟩
    rw [List.length_cons, List.replicate_succ, exec_cons, hstep]
    exact hexec

/-- The writes of an insertion, one after the other, are `addProcessor`. -/
theorem add_writes (hv : Valid s.sched s.members) (hadd : s.adding = none) {p : P}
    (hp : p ∉ s.members) : ∃ n t, Transition.exec traversal s (.add p :: List.replicate n .write) =
      some t ∧ addProcessor s.sched p = some t.sched ∧ t.adding = none ∧
        t.members = p :: s.members := by
  obtain ⟨⟨ring, place, count⟩, members, adding, victim, trail⟩ := s
  subst hadd
  cases place with
  | none =>
    refine ⟨4, ⟨⟨close ring p p, some p, count + 1⟩, p :: members, none, victim, trail⟩, ?_, rfl, rfl,
      rfl⟩
    simp [List.replicate, traversal, step, start, write, hp, guard, Phase.publishes, close]
  | some a =>
    obtain ⟨ha, l, hh, -⟩ := place_mem hv rfl
    obtain ⟨hnext, hprev⟩ : ring.next p = none ∧ ring.prev p = none := hv.outside p hp
    have hap : a ≠ p := fun heq => hp (heq ▸ ha)
    have hlinked : (ring.next a).isSome ∧ (ring.prev a).isSome := hh.linked List.mem_cons_self
    have hbehind : ring.next a = some (behind a l) := next_some hh
    refine ⟨5, ⟨⟨splice ring a (behind a l) p p, some a, count + 1⟩, p :: members, none, victim, trail⟩,
      ?_, ?_, rfl, rfl⟩
    · simp [List.replicate, traversal, step, start, write, hp, guard, Phase.publishes, linked, hnext,
        hprev, hlinked, Heap.setNext, Heap.setPrev, hbehind, hap, splice]
    · exact congrArg (Option.map _) (insert_after_eq hh hnext hprev)

/-- Wherever a search is, it is on the ring, and fewer links than there are members take it round. -/
theorem Inv.search (hI : Inv s) {p v : P} (hv : s.victim p = some v) :
    v ∈ s.members ∧ (∃ q ∈ s.members, s.sched.ring.next v = some q) ∧
      (∀ q ∈ s.trail p, q ∈ s.members ∧ q ≠ p) ∧ (s.trail p).Nodup ∧
        ∃ k, k + (s.trail p).length < s.members.length ∧
          ∃ t, Transition.exec traversal s (List.replicate k (.follow p)) = some t ∧
            t.victim p = some p := by
  have hsearch := hI.searches p v hv
  obtain ⟨l, hl, hl', hm⟩ := hI.circle
  obtain ⟨b, w, hcircle, hperm, hvw, hsub⟩ := hsearch
  have hnodup : (p :: b ++ w).Nodup := hperm.symm.nodup hm
  have hvm := (hI.searches p v hv).at_member.1
  obtain ⟨q, hq, hnext⟩ := hl.next_mem (hl'.mem_iff.mpr hvm)
  have hb : b.Nodup := (List.nodup_append.mp (List.nodup_cons.mp hnodup).2).1
  refine ⟨hvm, ⟨q, hl'.mem_iff.mp hq, hnext⟩, fun q hq => ⟨?_, ?_⟩, hb.sublist hsub, w.length, ?_,
    follow_back hv hcircle hnodup hvw⟩
  · exact hperm.mem_iff.mp (by simp [hsub.subset hq])
  · rintro rfl
    exact (List.nodup_cons.mp hnodup).1 (List.mem_append_left w (hsub.subset hq))
  · have hlen := hperm.length_eq
    have hle := hsub.length_le
    simp only [List.length_append, List.length_cons] at hlen
    omega

/-- Under `ringLock`: `placeProc` is null exactly without processors, else the ring through it is a cycle
    of `ringCount` processors, those added and not removed; the operations have a value; `ringCount`
    placements choose each one once. Without it, in every interleaving with the writes of insertions: a
    thief finds members only, none of them twice, and is back at itself after fewer links than there
    are members. -/
theorem ring_placement :
    (∀ (s : Sched P) (m : List P), ProcessorRing.Reach s m →
      (s.placeProc = none ↔ s.ringCount = 0) ∧
      (∀ a, s.placeProc = some a →
        ∃ l, Holds s.ring a l ∧ (a :: l).Perm m ∧ (a :: l).length = s.ringCount) ∧
      (∀ op : Op P, op.Pre m → ∃ s', op.exec s = some s') ∧
      ∃ ps, placements s.ringCount s = some (s, ps) ∧ ps.Perm m ∧ ps.Nodup) ∧
    ∀ s : State P, Transition.Reach traversal s →
      (∀ p ∈ s.members, ∃ q ∈ s.members, s.sched.ring.next p = some q) ∧
      ∀ p v, s.victim p = some v → v ∈ s.members ∧
        (∀ q ∈ s.trail p, q ∈ s.members ∧ q ≠ p) ∧ (s.trail p).Nodup ∧
          ∃ k, k + (s.trail p).length < s.members.length ∧
            ∃ t, Transition.exec traversal s (List.replicate k (.follow p)) = some t ∧
              t.victim p = some p := by
  refine ⟨fun s m hr => ?_, fun s hr => ⟨fun p hp => ?_, fun p v hv => ?_⟩⟩
  · have hv := reach_valid hr
    refine ⟨hv.null_iff, fun a ha => ?_, fun op hpre => ?_, ?_⟩
    · obtain ⟨-, l, hh, hperm⟩ := place_mem hv ha
      exact ⟨l, hh, hperm, hperm.length_eq.trans hv.count.symm⟩
    · obtain ⟨s', hexec, -⟩ := exec_valid hv hpre
      exact ⟨s', hexec⟩
    · obtain ⟨ps, hplace, hperm⟩ := hv.placements
      refine ⟨ps, hplace, hperm, ?_⟩
      rcases hv.ring with ⟨-, rfl⟩ | ⟨a, l, -, hh, hperm'⟩
      · rw [List.perm_nil.mp hperm]
        exact List.nodup_nil
      · exact (hperm.trans hperm'.symm).symm.nodup hh.nodup
  · obtain ⟨l, hl, hperm, -⟩ := (reach_inv hr).circle
    obtain ⟨q, hq, hnext⟩ := hl.next_mem (hperm.mem_iff.mpr hp)
    exact ⟨q, hperm.mem_iff.mp hq, hnext⟩
  · obtain ⟨hvm, -, hrest⟩ := (reach_inv hr).search hv
    exact ⟨hvm, hrest⟩

end Libfibre.ProcessorRing
