import Libfibre.Container.List

/-! The processors of a scheduler (`Scheduler.h`): a ring, and `placeProc` somewhere on it. A processor is
    let in behind `placeProc`, and every placement moves `placeProc` on by one:

        placeProc ─▶ a ◀─▶ b ◀─▶ c ◀─▶ a ···        placement: b, then c, then a, then b

    A removal that hits `placeProc` moves it on first, and nulls it if it comes back to the same one.
    What is here is done under `ringLock`, in one piece. -/

namespace Libfibre.ProcessorRing
open LinkPath Libfibre.Ring
open IntrusiveList (Holds before behind Fresh)

structure Sched (P : Type) where
  ring : Ring.Heap P
  placeProc : Option P
  ringCount : ℕ

variable {P : Type} [DecidableEq P]

section Model

/-- A scheduler without processors; a link is null when it is made. -/
def new : Sched P := ⟨⟨fun _ => none, fun _ => none⟩, none, 0⟩

def addProcessor (s : Sched P) (proc : P) : Option (Sched P) :=
  match s.placeProc with
  | none => some ⟨close s.ring proc proc, some proc, s.ringCount + 1⟩
  | some place =>
    (insertAfter s.ring place proc proc).map fun ring => ⟨ring, some place, s.ringCount + 1⟩

def removeProcessor (s : Sched P) (proc : P) : Option (Sched P) := do
  let place ← s.placeProc
  -- move placeProc, if necessary
  let place := if place = proc then s.ring.next place else some place
  -- ring empty?
  let place := if place = some proc then none else place
  return ⟨← remove s.ring proc proc, place, s.ringCount - 1⟩

def placement (s : Sched P) : Option (Sched P × P) := do
  let place ← s.ring.next (← s.placeProc)
  return ({ s with placeProc := some place }, place)

/-- `n` placements in a row. -/
def placements : ℕ → Sched P → Option (Sched P × List P)
  | 0, s => some (s, [])
  | n + 1, s => do
    let (s, p) ← placement s
    let (s, ps) ← placements n s
    return (s, p :: ps)

end Model

/-! ### The members of the ring -/

inductive Op (P : Type) where
  | add (proc : P)
  | remove (proc : P)
  | place

def Op.exec (s : Sched P) : Op P → Option (Sched P)
  | .add p => addProcessor s p
  | .remove p => removeProcessor s p
  | .place => (placement s).map Prod.fst

/-- What a caller has to see to. -/
def Op.Pre (m : List P) : Op P → Prop
  | .add p => p ∉ m
  | .remove p => p ∈ m
  | .place => m ≠ []

/-- Those who have been added and not removed. -/
def Op.apply (m : List P) : Op P → List P
  | .add p => p :: m
  | .remove p => m.erase p
  | .place => m

inductive Reach : Sched P → List P → Prop where
  | new : Reach new []
  | step {s s' : Sched P} {m : List P} {op : Op P} (before : Reach s m) (pre : op.Pre m)
      (exec : op.exec s = some s') : Reach s' (op.apply m)

/-- INVARIANT: `placeProc` is null and there is no member, or the ring through it is the members. -/
structure Valid (s : Sched P) (m : List P) : Prop where
  ring : s.placeProc = none ∧ m = [] ∨
    ∃ a l, s.placeProc = some a ∧ Holds s.ring a l ∧ (a :: l).Perm m
  count : s.ringCount = m.length
  outside : ∀ p ∉ m, s.ring.next p = none ∧ s.ring.prev p = none

variable {s : Sched P} {m : List P} {a b p : P} {l u v : List P} {h : Heap P}

omit [DecidableEq P] in
/-- The ring may be entered at the next node. -/
theorem holds_rotate (hh : Holds h a (b :: v)) : Holds h b (v ++ [a]) where
  forth := by
    have hcircle : Circle h.next (b :: (v ++ [a])) := Circle.rotate (u := [a]) hh.forth
    exact hcircle
  back := by
    have hsplit : a :: (b :: v).reverse = (a :: v.reverse) ++ [b] := by simp
    have hcircle : Circle h.prev ((a :: v.reverse) ++ [b]) := hsplit ▸ hh.back
    have hrotated := hcircle.rotate
    rw [List.reverse_append, List.reverse_singleton]
    exact hrotated
  nodup := by
    have hperm : (a :: b :: v).Perm (b :: (v ++ [a])) :=
      @List.perm_append_comm _ [a] (b :: v)
    exact hperm.nodup hh.nodup

/-- The one node that is linked to itself. -/
theorem holds_close : Holds (close h p p) p [] where
  forth := ⟨Function.update_self .., trivial⟩
  back := ⟨Function.update_self .., trivial⟩
  nodup := List.nodup_singleton p

theorem add_first (hv : Valid s []) :
    Valid ⟨close s.ring p p, some p, s.ringCount + 1⟩ [p] where
  ring := .inr ⟨p, [], rfl, holds_close, .refl _⟩
  count := by rw [hv.count]; rfl
  outside q hq := by
    have hqp : q ≠ p := List.ne_of_not_mem_cons hq
    obtain ⟨hnext, hprev⟩ := hv.outside q (List.not_mem_nil)
    exact ⟨(Function.update_of_ne hqp _ _).trans hnext, (Function.update_of_ne hqp _ _).trans hprev⟩

omit [DecidableEq P] in
theorem next_some (hh : Holds h a l) : h.next a = some (behind a l) :=
  (IntrusiveList.Holds.at_place (u := []) (v := l) hh).1

/-- A node with null links is let in behind `placeProc`. -/
theorem splice_after (hh : Holds h a l) (hp : p ∉ a :: l) (hnext : h.next p = none)
    (hprev : h.prev p = none) : Holds (splice h a (behind a l) p p) a (p :: l) := by
  have hfresh : Fresh h a ([] ++ l) [p] :=
    ⟨by simp, List.nodup_append.mpr ⟨hh.nodup, List.nodup_singleton p, by
      rintro x hx y hy rfl
      exact hp (List.mem_singleton.mp hy ▸ hx)⟩, ⟨hnext, trivial⟩, ⟨hprev, trivial⟩⟩
  exact IntrusiveList.splice_holds (u := []) (c := [p]) hh hfresh rfl rfl

omit [DecidableEq P] in
theorem behind_mem (a : P) (l : List P) : behind a l ∈ a :: l :=
  IntrusiveList.behind_mem a [] l

theorem add_more (hv : Valid s m) (hh : Holds s.ring a l)
    (hperm : (a :: l).Perm m) (hp : p ∉ m) :
    Valid ⟨splice s.ring a (behind a l) p p, some a, s.ringCount + 1⟩ (p :: m) where
  ring := by
    obtain ⟨hnext, hprev⟩ := hv.outside p hp
    have hpl : p ∉ a :: l := fun hm => hp (hperm.mem_iff.mp hm)
    refine .inr ⟨a, p :: l, rfl, splice_after hh hpl hnext hprev, ?_⟩
    exact (List.Perm.swap p a l).trans (hperm.cons p)
  count := by rw [hv.count]; rfl
  outside q hq := by
    obtain ⟨hqp, hqm⟩ := List.ne_and_not_mem_of_not_mem_cons hq
    have hq' : ∀ x ∈ a :: l, q ≠ x := fun x hx heq => hqm (hperm.mem_iff.mp (heq ▸ hx))
    obtain ⟨hnext, hprev⟩ := hv.outside q hqm
    exact ⟨(update_both hqp (hq' a List.mem_cons_self)).trans hnext,
      (update_both hqp (hq' _ (behind_mem a l))).trans hprev⟩

theorem insert_after_eq (hh : Holds h a l) (hnext : h.next p = none) (hprev : h.prev p = none) :
    insertAfter h a p p = some (splice h a (behind a l) p p) :=
  insertAfter_eq (next_some hh) (hh.linked List.mem_cons_self).2 hprev hnext

theorem add_valid (hv : Valid s m) (hp : p ∉ m) :
    ∃ s', addProcessor s p = some s' ∧ Valid s' (p :: m) := by
  rcases hv.ring with ⟨hplace, rfl⟩ | ⟨a, l, hplace, hh, hperm⟩
  · exact ⟨_, by rw [addProcessor, hplace], add_first hv⟩
  · obtain ⟨hnext, hprev⟩ := hv.outside p hp
    refine ⟨_, ?_, add_more hv hh hperm hp⟩
    rw [addProcessor, hplace]
    exact congrArg (Option.map _) (insert_after_eq hh hnext hprev)

/-- A member other than `placeProc` is taken out of the ring. -/
theorem take_out (hh : Holds h a (u ++ [p] ++ v)) : ∃ h', remove h p p = some h' ∧
    Holds h' a (u ++ v) ∧ h'.next p = none ∧ h'.prev p = none ∧
      ∀ q ∉ a :: (u ++ [p] ++ v), h'.next q = h.next q ∧ h'.prev q = h.prev q := by
  obtain ⟨hh', hchain⟩ := IntrusiveList.unsplice_holds (c := [p]) (f := p) (z := p) hh rfl rfl
  refine ⟨_, IntrusiveList.remove_place (c := [p]) hh rfl rfl, hh', hchain.forth.1, hchain.back.1,
    fun q hq => ?_⟩
  have hmem : ∀ x ∈ a :: (u ++ [p] ++ v), q ≠ x := fun x hx heq => hq (heq ▸ hx)
  have hqp : q ≠ p := hmem p (by simp)
  have hqb : q ≠ before a u := hmem _ (by
    rw [List.append_assoc]
    exact IntrusiveList.before_mem a u ([p] ++ v))
  have hqf : q ≠ behind a v := hmem _ (IntrusiveList.behind_mem a (u ++ [p]) v)
  exact ⟨update_both hqb hqp, update_both hqf hqp⟩

/-- After a member other than the one `placeProc` stands at then is taken out. -/
theorem remove_other (hv : Valid s m) (hh : Holds s.ring a (u ++ [p] ++ v))
    (hperm : (a :: (u ++ [p] ++ v)).Perm m) : ∃ ring, remove s.ring p p = some ring ∧
      Valid ⟨ring, some a, s.ringCount - 1⟩ (m.erase p) := by
  obtain ⟨ring, heq, hh', hnext, hprev, hother⟩ := take_out hh
  have hm : m.Nodup := hperm.nodup hh.nodup
  have hpm : p ∈ m := hperm.mem_iff.mp (by simp)
  have hpa : a ≠ p := by
    rintro rfl
    exact (List.nodup_cons.mp hh.nodup).1 (by simp)
  refine ⟨ring, heq, .inr ⟨a, u ++ v, rfl, hh', ?_⟩, ?_, fun q hq => ?_⟩
  · refine List.Perm.trans ?_ (hperm.erase p)
    rw [List.erase_cons_tail (by simpa using hpa)]
    refine List.Perm.cons a ?_
    have hmiddle : (u ++ [p] ++ v).Perm (p :: (u ++ v)) := by
      rw [List.append_assoc]
      exact List.perm_middle
    exact (List.erase_cons_head p (u ++ v) ▸ hmiddle.erase p).symm
  · rw [hv.count, List.length_erase_of_mem hpm]
  · rcases eq_or_ne q p with rfl | hqp
    · exact ⟨hnext, hprev⟩
    · have hqm : q ∉ m := fun hm' => hq ((List.mem_erase_of_ne hqp).mpr hm')
      obtain ⟨hnext', hprev'⟩ := hother q fun hm' => hqm (hperm.mem_iff.mp hm')
      obtain ⟨hnull, hnull'⟩ := hv.outside q hqm
      exact ⟨hnext'.trans hnull, hprev'.trans hnull'⟩

/-- The last member leaves. -/
theorem remove_last (hv : Valid s m) (hh : Holds s.ring p []) (hperm : [p].Perm m) :
    ∃ ring, remove s.ring p p = some ring ∧
      Valid ⟨ring, none, s.ringCount - 1⟩ (m.erase p) := by
  obtain rfl : m = [p] := List.perm_singleton.mp hperm.symm
  have hnext : s.ring.next p = some p := hh.forth.1
  have hprev : s.ring.prev p = some p := hh.back.1
  have heq : remove s.ring p p =
      some ⟨Function.update s.ring.next p none, Function.update s.ring.prev p none⟩ := by
    simp [remove, takeOut, linked, hnext, hprev, Heap.setNext, Heap.setPrev, guard]
  refine ⟨_, heq, .inl ⟨rfl, by simp⟩, by rw [hv.count]; simp, fun q _ => ?_⟩
  rcases eq_or_ne q p with rfl | hqp
  · exact ⟨Function.update_self .., Function.update_self ..⟩
  · obtain ⟨hnull, hnull'⟩ := hv.outside q (by simpa using hqp)
    exact ⟨(Function.update_of_ne hqp _ _).trans hnull, (Function.update_of_ne hqp _ _).trans hnull'⟩

theorem remove_valid (hv : Valid s m) (hp : p ∈ m) :
    ∃ s', removeProcessor s p = some s' ∧ Valid s' (m.erase p) := by
  obtain ⟨-, rfl⟩ | ⟨a, l, hplace, hh, hperm⟩ := hv.ring
  · exact absurd hp List.not_mem_nil
  · have hpl : p ∈ a :: l := hperm.mem_iff.mpr hp
    rcases eq_or_ne a p with rfl | hap
    · cases l with
      | nil =>
        obtain ⟨ring, heq, hv'⟩ := remove_last hv hh hperm
        have hnext : s.ring.next a = some a := hh.forth.1
        exact ⟨_, by simp [removeProcessor, hplace, hnext, heq], hv'⟩
      | cons b v =>
        -- `placeProc` moves on to `b`
        have hrotated := holds_rotate hh
        have hperm' : (b :: (v ++ [a] ++ [])).Perm m := by
          rw [List.append_nil]
          exact (@List.perm_append_comm _ (b :: v) [a]).trans hperm
        rw [← List.append_nil (v ++ [a])] at hrotated
        obtain ⟨ring, heq, hv'⟩ := remove_other hv hrotated hperm'
        have hnext : s.ring.next a = some b := hh.forth.1
        have hba : b ≠ a := by
          rintro rfl
          exact (List.nodup_cons.mp hh.nodup).1 List.mem_cons_self
        exact ⟨_, by simp [removeProcessor, hplace, hnext, hba, heq], hv'⟩
    · obtain ⟨u, v, rfl⟩ := List.append_of_mem ((List.mem_cons.mp hpl).resolve_left (Ne.symm hap))
      rw [List.append_cons] at hh hperm
      obtain ⟨ring, heq, hv'⟩ := remove_other hv hh hperm
      exact ⟨_, by simp [removeProcessor, hplace, hap, heq], hv'⟩

omit [DecidableEq P] in
/-- Placements follow the ring. -/
theorem placements_path {n : ℕ} (hpath : Links some h.next (a :: u) (some b)) :
    placements (u.length + 1) ⟨h, some a, n⟩ = some (⟨h, some b, n⟩, u ++ [b]) := by
  induction u generalizing a with
  | nil =>
    have hnext : h.next a = some b := hpath.1
    simp [placements, placement, hnext]
  | cons c u ih =>
    have hnext : h.next a = some c := hpath.1
    rw [List.length_cons, placements]
    simp [placement, hnext, ih hpath.2]

theorem place_valid (hv : Valid s m) (hm : m ≠ []) :
    ∃ s', Op.exec s .place = some s' ∧ Valid s' m := by
  obtain ⟨-, rfl⟩ | ⟨a, l, hplace, hh, hperm⟩ := hv.ring
  · exact absurd rfl hm
  · have hexec : Op.exec s .place = some { s with placeProc := some (behind a l) } := by
      simp [Op.exec, placement, hplace, next_some hh]
    refine ⟨_, hexec, ?_, hv.count, hv.outside⟩
    cases l with
    | nil => exact .inr ⟨a, [], rfl, hh, hperm⟩
    | cons b v =>
      refine .inr ⟨b, v ++ [a], rfl, holds_rotate hh, ?_⟩
      exact (@List.perm_append_comm _ (b :: v) [a]).trans hperm

theorem exec_valid (hv : Valid s m) {op : Op P} (hpre : op.Pre m) :
    ∃ s', op.exec s = some s' ∧ Valid s' (op.apply m) := by
  cases op with
  | add p => exact add_valid hv hpre
  | remove p => exact remove_valid hv hpre
  | place => exact place_valid hv hpre

omit [DecidableEq P] in
theorem new_valid : Valid (new : Sched P) [] where
  ring := .inl ⟨rfl, rfl⟩
  count := rfl
  outside _ _ := ⟨rfl, rfl⟩

theorem reach_valid (hr : Reach s m) : Valid s m := by
  induction hr with
  | new => exact new_valid
  | step _ hpre hexec ih =>
    obtain ⟨s', hexec', hv⟩ := exec_valid ih hpre
    obtain rfl := Option.some.inj (hexec.symm.trans hexec')
    exact hv

omit [DecidableEq P] in
theorem Valid.null_iff (hv : Valid s m) : s.placeProc = none ↔ s.ringCount = 0 := by
  rw [hv.count, List.length_eq_zero_iff]
  rcases hv.ring with ⟨hplace, rfl⟩ | ⟨a, l, hplace, -, hperm⟩
  · exact iff_of_true hplace rfl
  · refine iff_of_false (by simp [hplace]) fun hm => ?_
    rw [hm] at hperm
    exact absurd hperm.length_eq (by simp)

omit [DecidableEq P] in
/-- As many placements as there are members choose each of them once, and are back where they began. -/
theorem Valid.placements (hv : Valid s m) :
    ∃ ps, placements s.ringCount s = some (s, ps) ∧ ps.Perm m := by
  obtain ⟨ring, place, n⟩ := s
  have hcount : n = m.length := hv.count
  rcases hv.ring with ⟨-, rfl⟩ | ⟨a, l, rfl, hh, hperm⟩
  · exact ⟨[], by rw [hcount]; rfl, .refl _⟩
  · refine ⟨l ++ [a], ?_, (@List.perm_append_comm _ l [a]).trans hperm⟩
    have hlen : n = l.length + 1 := by rw [hcount, ← hperm.length_eq, List.length_cons]
    rw [hlen]
    exact placements_path hh.forth

end Libfibre.ProcessorRing
